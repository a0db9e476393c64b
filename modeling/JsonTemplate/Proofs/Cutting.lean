import JsonTemplate.Proofs.Parts

/-!
# Cutting an expression

An expression is cut at its top-level signs. Operands in a row are cut into the operands, each of
which is read as it is on its own, exactly if all that a sign follows are `Operand.Balanced`
(`Operand.Joined.parse_iff`): the list of a token ends at the first closing bracket for the one who
takes it off a template, but is cut with its quotes and nested brackets.
-/

namespace JsonTemplate

open Text

/-! ## Cutting at signs -/

namespace Cursor

/-- The cursor after a text. -/
def after (s : Cursor) (t : List Char) : Cursor :=
  t.foldl next s

/-- No sign of the text is met at the top level. -/
def Uncut : Cursor → List Char → Prop
  | _, [] => True
  | s, c :: t => ¬ (s = .top ∧ c = '+') ∧ Uncut (s.next c) t

theorem Uncut.splitFrom_append {rest : List Char} : ∀ {t : List Char} {s : Cursor}, s.Uncut t →
    splitFrom s (t ++ rest) = (splitFrom (s.after t) rest).modifyHead (t ++ ·)
  | [], s, _ => by
    rw [List.nil_append, show s.after [] = s from rfl]
    cases splitFrom s rest <;> rfl
  | c :: t, s, h => by
    rw [List.cons_append, splitFrom, if_neg h.1, Uncut.splitFrom_append h.2,
      show s.after (c :: t) = (s.next c).after t from rfl]
    simp [Function.comp_def]

theorem uncut_outside {depth : Nat} {t : List Char}
    (h : ∀ c ∈ t, c ≠ '"' ∧ c ≠ '(' ∧ c ≠ ')' ∧ (depth = 0 → c ≠ '+')) :
    (outside depth).Uncut t ∧ (outside depth).after t = .outside depth := by
  induction t with
  | nil => exact ⟨trivial, rfl⟩
  | cons c t ih =>
    obtain ⟨hquote, hopen, hclose, hplus⟩ := h c List.mem_cons_self
    have hcut : ¬ (outside depth = .top ∧ c = '+') := by
      rintro ⟨htop, rfl⟩
      cases htop
      exact hplus rfl rfl
    have hnext : (outside depth).next c = .outside depth := by
      simp [next, hquote, hopen, hclose]
    obtain ⟨huncut, hafter⟩ := ih fun d hd => h d (List.mem_cons_of_mem c hd)
    refine ⟨⟨hcut, ?_⟩, ?_⟩
    · rw [hnext]
      exact huncut
    · rw [after, List.foldl_cons, hnext]
      exact hafter

/-- Where the cursor is within a literal. -/
def within (escaped : Bool) : Cursor :=
  if escaped then .escaped 0 else .quoted 0

theorem within_ne_top (escaped : Bool) : within escaped ≠ .top := by
  cases escaped <;> decide

end Cursor

/-- At the closing quote of a literal the cursor is at the top level again. -/
theorem Operand.Closes.uncut {t : List Char} : ∀ {escaped : Bool}, Operand.Closes escaped t →
    (Cursor.within escaped).Uncut t ∧ (Cursor.within escaped).after t = .top := by
  induction t with
  | nil => exact fun h => absurd h (Operand.not_closes_nil _)
  | cons c t ih =>
    intro escaped h
    have hcut : ¬ (Cursor.within escaped = .top ∧ c = '+') :=
      fun hc => Cursor.within_ne_top escaped hc.1
    rcases h.of_cons with ⟨rfl, rfl, rfl⟩ | ⟨hc, h⟩
    · exact ⟨⟨hcut, trivial⟩, rfl⟩
    · have hnext : (Cursor.within escaped).next c = .within (!escaped && c == '\\') := by
        cases escaped with
        | true => rfl
        | false =>
          have hc : c ≠ '"' := hc.resolve_left Bool.false_ne_true
          by_cases hslash : c = '\\' <;> simp [Cursor.within, Cursor.next, hslash, hc]
      obtain ⟨huncut, hafter⟩ := ih h
      refine ⟨⟨hcut, ?_⟩, ?_⟩
      · rw [hnext]
        exact huncut
      · rw [Cursor.after, List.foldl_cons, hnext]
        exact hafter

theorem Operand.Closes.uncut_quoted {t : List Char} (h : Operand.Closes false t) :
    Cursor.top.Uncut ('"' :: t) ∧ Cursor.top.after ('"' :: t) = .top :=
  ⟨⟨by decide, h.uncut.1⟩, h.uncut.2⟩

/-- At the top level the text is neither cut nor left open. -/
def Unbroken (t : List Char) : Prop :=
  ∀ rest, splitFrom .top (t ++ rest) = (splitFrom .top rest).modifyHead (t ++ ·)

theorem Cursor.Uncut.unbroken {t : List Char} (h : Cursor.top.Uncut t ∧ Cursor.top.after t = .top) :
    Unbroken t := by
  intro rest
  rw [h.1.splitFrom_append, h.2]

theorem Unbroken.append {s t : List Char} (hs : Unbroken s) (ht : Unbroken t) :
    Unbroken (s ++ t) := by
  intro rest
  rw [List.append_assoc, hs, ht]
  simp [Function.comp_def]

theorem Blanks.unbroken (b : Blanks) : Unbroken b := by
  refine Cursor.Uncut.unbroken (Cursor.uncut_outside fun c hc => ?_)
  rcases isJsonBlank_iff.1 (b.2 c hc) with rfl | rfl | rfl | rfl <;> decide

/-! ## Brackets and blanks -/

namespace Cursor

theorem Uncut.append : ∀ {t u : List Char} {s : Cursor}, s.Uncut t → (s.after t).Uncut u →
    s.Uncut (t ++ u)
  | [], _, _, _, hu => hu
  | _ :: _, _, _, ht, hu => ⟨ht.1, Uncut.append ht.2 hu⟩

theorem after_append (s : Cursor) (t u : List Char) : s.after (t ++ u) = (s.after t).after u :=
  List.foldl_append

theorem uncut_of_notMem : ∀ {t : List Char} {s : Cursor}, '+' ∉ t → s.Uncut t
  | [], _, _ => trivial
  | c :: _, _, h => ⟨fun hc => h (hc.2 ▸ List.mem_cons_self),
      uncut_of_notMem fun hc => h (List.mem_cons_of_mem c hc)⟩

/-- The number of open brackets. -/
def depth : Cursor → Nat
  | .outside d | .quoted d | .escaped d => d

/-- Where no bracket is closed none is taken back, so that a text within brackets is not cut. -/
theorem uncut_of_depth {t : List Char} (ht : ')' ∉ t) : ∀ {s : Cursor}, 0 < s.depth →
    s.Uncut t ∧ 0 < (s.after t).depth := by
  induction t with
  | nil => exact fun hs => ⟨trivial, hs⟩
  | cons c t ih =>
    intro s hs
    have hc : c ≠ ')' := fun h => ht (h ▸ List.mem_cons_self)
    have hnext : 0 < (s.next c).depth := by
      cases s with
      | outside d =>
        by_cases hquote : c = '"'
        · simpa [next, hquote, depth] using hs
        · by_cases hopen : c = '('
          · simp [next, hopen, depth]
          · simpa [next, hc, hquote, hopen, depth] using hs
      | quoted d =>
        by_cases hslash : c = '\\'
        · simpa [next, hslash, depth] using hs
        · by_cases hquote : c = '"'
          · simpa [next, hquote, depth] using hs
          · simpa [next, hslash, hquote, depth] using hs
      | escaped d => exact hs
    obtain ⟨hcut, hdepth⟩ := ih (fun h => ht (List.mem_cons_of_mem c h)) hnext
    refine ⟨⟨?_, hcut⟩, hdepth⟩
    rintro ⟨rfl, -⟩
    exact absurd hs (by decide)

/-- Blanks do not move a cursor that is not just after a backslash. -/
theorem after_blanks {b : List Char} (hb : ∀ c ∈ b, isJsonBlank c = true) {s : Cursor}
    (hs : ∀ d, s ≠ .escaped d) : s.after b = s := by
  induction b with
  | nil => rfl
  | cons c b ih =>
    have hnext : s.next c = s := by
      cases s with
      | escaped d => exact absurd rfl (hs d)
      | outside d | quoted d =>
        rcases isJsonBlank_iff.1 (hb c List.mem_cons_self) with rfl | rfl | rfl | rfl <;> rfl
    rw [show s.after (c :: b) = (s.next c).after b from rfl, hnext]
    exact ih fun d hd => hb d (List.mem_cons_of_mem c hd)

end Cursor

/-! ## Operands -/

namespace Operand

/-- Evaluated on its own the operand is read as this segment: a literal is what it denotes, or what
is between its quotes, and a token is its directive. -/
def segment? : Operand → Option Segment
  | .literal t => some (.literal ((Json.literalText? t).getD (String.ofList t.tail.dropLast)))
  | .token t => (Directive.parse? t).map .directive

/-- After a token all its quotes and brackets are closed again. -/
def Balanced : Operand → Prop
  | .literal _ => True
  | .token t => Cursor.top.after t = .top

instance : DecidablePred Balanced
  | .literal _ => inferInstanceAs (Decidable True)
  | .token t => inferInstanceAs (Decidable (Cursor.top.after t = .top))

/-- The literal ends with its closing quote. A token needs no end. -/
def Terminated : Operand → Prop
  | .literal t => Closes false t.tail
  | .token _ => True

theorem whole_of_split? {t rest : List Char} {o : Operand} (h : split? t = some (o, rest))
    (ht : o.Terminated) : o.Whole := by
  rcases split?_eq_some h with ⟨u, -, rfl, -⟩ | ⟨k, hk, rfl⟩
  · exact .literal ht
  · exact .token (Token.wellFormed_of_split? hk)

end Operand

namespace Operand.Whole

variable {o : Operand}

/-- A part that is an operand is read as the operand. -/
theorem parse_text (h : o.Whole) : o.segment? = some (Segment.parse o.text) := by
  cases h with
  | @literal t h =>
    obtain ⟨inner, rfl⟩ := h.exists_eq_concat
    have hlast : ('"' :: (inner ++ ['"'])).getLast? = some '"' := by
      rw [← List.cons_append, List.getLast?_concat]
    have hinner : Segment.unquote? '"' ('"' :: (inner ++ ['"'])) = some inner := by
      rw [Segment.unquote?, if_pos ⟨by simp, rfl, hlast⟩]
      simp
    have hdecode : Segment.decode ('"' :: (inner ++ ['"'])) inner
        = (Json.literalText? ('"' :: (inner ++ ['"']))).getD (String.ofList inner) := by
      rw [Segment.decode, Json.literalText?]
      cases hread : Json.read ('"' :: (inner ++ ['"'])) with
      | error e => rfl
      | ok v => cases v <;> rfl
    rw [segment?, text]
    unfold Segment.parse
    split
    · rename_i heq
      cases heq
    · rw [hinner]
      simp [hdecode]
  | @token k h =>
    have hparse := Directive.parse?_text h
    rw [segment?, text, hparse]
    rw [Token.text, List.cons_append, List.cons_append] at *
    rw [Segment.parse, hparse]
    rfl

end Operand.Whole

namespace Token.WellFormed

variable {k : Token}

/-- Up to its list a token leaves the cursor at the top level. -/
theorem uncut_path (h : k.WellFormed) :
    Cursor.top.Uncut ('@' :: k.name ++ methodText k.method)
      ∧ Cursor.top.after ('@' :: k.name ++ methodText k.method) = .top := by
  refine Cursor.uncut_outside fun c hc => ?_
  have hname := h.path_chars c hc
  refine ⟨?_, ?_, ?_, fun _ => ?_⟩ <;> rintro rfl <;> revert hname <;> decide

/-- The list of a token is not cut, since it has but one closing bracket, at its end. After that the
cursor is not within an escape. -/
theorem uncut (h : k.WellFormed) :
    Cursor.top.Uncut k.text ∧ ∀ d, Cursor.top.after k.text ≠ .escaped d := by
  obtain ⟨huncut, hafter⟩ := h.uncut_path
  cases ha : k.arguments with
  | none =>
    rw [text, ha, argumentsText, List.append_nil, hafter]
    exact ⟨huncut, fun d => by rintro ⟨⟩⟩
  | some a =>
    obtain ⟨hinside, hdepth⟩ :=
      Cursor.uncut_of_depth (h.arguments a ha) (s := .outside 1) Nat.one_pos
    have htext : k.text = ('@' :: k.name ++ methodText k.method) ++ ('(' :: (a ++ [')'])) := by
      rw [text, ha]
      rfl
    have hlist : Cursor.top.Uncut ('(' :: (a ++ [')'])) := by
      refine ⟨by decide, hinside.append ⟨?_, trivial⟩⟩
      rintro ⟨-, heq⟩
      cases heq
    have hend : Cursor.top.after ('(' :: (a ++ [')'])) = ((Cursor.outside 1).after a).next ')' :=
      Cursor.after_append (.outside 1) a [')']
    refine ⟨?_, fun d => ?_⟩
    · rw [htext]
      exact huncut.append (by rwa [hafter])
    · rw [htext, Cursor.after_append, hafter, hend]
      cases (Cursor.outside 1).after a <;> simp [Cursor.next]

end Token.WellFormed

/-- The text of an operand is not cut. Only an unbalanced one does not lead back to the top
level. -/
theorem Operand.Whole.uncut {o : Operand} (h : o.Whole) :
    Cursor.top.Uncut o.text ∧ (o.Balanced ↔ Cursor.top.after o.text = .top) := by
  cases h with
  | literal h => exact ⟨h.uncut_quoted.1, iff_of_true trivial h.uncut_quoted.2⟩
  | token h => exact ⟨h.uncut.1, .rfl⟩

/-! ## The parts of a chain -/

/-- A token with a list, and something after the list that is no blank, is no directive with the
name of the token. -/
theorem Segment.parse_list_append {k : Token} (hk : k.WellFormed) {a rest : List Char}
    (ha : k.arguments = some a) (hne : rest ≠ []) (hlast : ∀ c ∈ rest.getLast?, isBlank c = false) :
    Segment.parse (k.text ++ rest) ≠ .directive (.ofToken k) := by
  have htext : k.text ++ rest = '@' :: (k.name ++ (Token.methodText k.method
      ++ (Token.argumentsText (some a) ++ rest))) := by
    simp [Token.text, ha]
  have hname : Token.splitName? (k.name ++ (Token.methodText k.method
      ++ (Token.argumentsText (some a) ++ rest)))
        = some (k.name, Token.methodText k.method ++ (Token.argumentsText (some a) ++ rest)) := by
    refine Token.splitName?_isName_append hk.name (Token.head?_methodText_append k.method ?_)
    intro c hc
    cases hc
    rfl
  have hmethod : Token.splitMethod (Token.methodText k.method
      ++ (Token.argumentsText (some a) ++ rest))
        = (k.method, Token.argumentsText (some a) ++ rest) := by
    refine Token.splitMethod_methodText_append hk.method fun c hc => ?_
    cases hc
    exact ⟨rfl, by decide⟩
  have hstart : trimStart (Token.argumentsText (some a) ++ rest)
      = Token.argumentsText (some a) ++ rest := rfl
  have htrim : trim (k.text ++ rest) = k.text ++ rest := by
    refine trim_eq_self (fun c hc => ?_) fun c hc => hlast c ?_
    · rw [htext] at hc
      cases hc
      rfl
    · rwa [List.getLast?_append, List.getLast?_eq_some_getLast hne, Option.some_or,
        ← List.getLast?_eq_some_getLast hne] at hc
  have hparse : Directive.parse? (k.text ++ rest) = none := by
    rw [Directive.parse?, htrim, htext]
    simp only [hname, Option.bind_eq_bind, Option.bind_some, hmethod, hstart,
      Token.splitArguments_list_append (hk.arguments a ha)]
    split
    · rename_i heq
      exact absurd (congrArg Prod.snd heq) hne
    · rfl
  intro heq
  rw [htext] at heq hparse
  rw [Segment.parse, hparse] at heq
  have hopen : '(' ∈ k.name := by
    have hnames := congrArg String.toList (congrArg Directive.name (Segment.directive.inj heq))
    rw [Option.getD_none, Directive.ofName, Directive.ofToken, String.toList_ofList,
      String.toList_ofList] at hnames
    rw [← hnames]
    simp [Token.argumentsText]
  exact absurd (hk.name.isNameChar '(' hopen) (by decide)

namespace Operand.Whole

variable {o : Operand}

theorem unbroken (h : o.Whole) (hb : o.Balanced) : Unbroken o.text :=
  Cursor.Uncut.unbroken ⟨h.uncut.1, h.uncut.2.1 hb⟩

/-- A part that ends with a balanced operand is that operand. -/
theorem parse_balanced (h : o.Whole) (hb : o.Balanced) (before after : Blanks)
    (rest : List Char) :
    (Expression.parse (before ++ (o.text ++ (after ++ '+' :: rest)))).map some
      = o.segment? :: (Expression.parse rest).map some := by
  have hsplit := before.unbroken.append ((h.unbroken hb).append after.unbroken)
  have htext : (before : List Char) ++ (o.text ++ (after ++ '+' :: rest))
      = (before ++ (o.text ++ after)) ++ '+' :: rest := by
    simp
  rw [Expression.parse, Expression.parse, splitAtSigns, splitAtSigns, htext, hsplit, splitFrom,
    if_pos ⟨rfl, rfl⟩]
  simp [h.trim_blanks before.2 after.2, h.parse_text]

/-- The part of an unbalanced operand goes on over the sign after it. -/
theorem parse_unbalanced (h : o.Whole) (hb : ¬ o.Balanced) (before after : Blanks)
    (rest : List Char) (segments : List (Option Segment)) :
    (Expression.parse (before ++ (o.text ++ (after ++ '+' :: rest)))).map some
      ≠ o.segment? :: segments := by
  have hcursor : Cursor.top.after o.text ≠ .top := fun htop => hb (h.uncut.2.2 htop)
  cases h with
  | literal h => exact absurd trivial hb
  | @token k h =>
    obtain ⟨huncut, hescaped⟩ := h.uncut
    obtain ⟨a, ha⟩ : ∃ a, k.arguments = some a := by
      cases ha : k.arguments with
      | some a => exact ⟨a, rfl⟩
      | none =>
        refine absurd ?_ hcursor
        rw [text, Token.text, ha, Token.argumentsText, List.append_nil]
        exact h.uncut_path.2
    obtain ⟨part, parts, hparts⟩ : ∃ part parts,
        splitFrom ((Cursor.top.after k.text).next '+') rest = part :: parts :=
      List.exists_cons_of_ne_nil (splitFrom_ne_nil _ _)
    have hblanks := Cursor.after_blanks after.2 hescaped
    have hsplit : splitAtSigns (before ++ (k.text ++ (after ++ '+' :: rest)))
        = (before ++ (k.text ++ (after ++ '+' :: part))) :: parts := by
      have hcut : (Cursor.top.after k.text).Uncut after :=
        Cursor.uncut_of_notMem fun h => absurd (after.2 _ h) (by decide)
      rw [splitAtSigns, before.unbroken, huncut.splitFrom_append, hcut.splitFrom_append, hblanks,
        splitFrom, if_neg fun hc => hcursor hc.1, hparts]
      simp
    -- The part holds the token and the sign after it: it is no directive of the token's name.
    have hnonblank : ∃ c ∈ (after : List Char) ++ '+' :: part, isBlank c = false :=
      ⟨'+', by simp, rfl⟩
    obtain ⟨hend, hne⟩ := trimEnd_append (s := k.text) hnonblank
    have htrim : trim (before ++ (k.text ++ (after ++ '+' :: part)))
        = k.text ++ trimEnd (after ++ '+' :: part) := by
      have hstart : trimStart (before ++ (k.text ++ (after ++ '+' :: part)))
          = k.text ++ (after ++ '+' :: part) := by
        rw [trimStart, List.dropWhile_append_of_pos fun c hc =>
          isBlank_of_isJsonBlank (before.2 c hc)]
        rfl
      rw [trim, hstart, hend]
    have hparse := Segment.parse_list_append h ha hne (getLast?_trimEnd _)
    intro heq
    rw [Expression.parse, text, hsplit, List.map_cons, List.map_cons, segment?,
      Directive.parse?_text h, htrim] at heq
    exact hparse (Option.some.inj (List.cons.inj heq).1)

end Operand.Whole

/-- The parts at the signs are the operands exactly if all before a sign are balanced. -/
theorem Operand.Joined.parse_iff {os : List Operand} {t : List Char} (ht : Joined os t) :
    ∀ {o : Operand} (before : Blanks), o.Whole → (∀ p ∈ os, p.Whole) →
      ((Expression.parse (before ++ (o.text ++ t))).map some = (o :: os).map segment?
        ↔ ∀ p ∈ (o :: os).dropLast, p.Balanced) := by
  induction ht with
  | nil =>
    intro o before ho _
    have hcut : splitAtSigns ((before : List Char) ++ (o.text ++ []))
        = [(before : List Char) ++ (o.text ++ [])] := by
      rw [splitAtSigns, before.unbroken, ho.uncut.1.splitFrom_append]
      rfl
    have htrim := ho.trim_blanks before.2 Blanks.none.2
    rw [Blanks.val_none] at htrim
    rw [Expression.parse, hcut, List.map_singleton, htrim]
    simp [ho.parse_text]
  | @cons o' os t after before' ht ih =>
    intro o before ho hos
    have ih := ih before' (hos o' List.mem_cons_self) fun o h => hos o (List.mem_cons_of_mem _ h)
    rw [List.dropLast_cons_cons, List.forall_mem_cons, List.map_cons]
    by_cases hb : o.Balanced
    · rw [ho.parse_balanced hb, List.cons.injEq, ih]
      simp [hb]
    · exact iff_of_false (ho.parse_unbalanced hb before after _ _) fun h => hb h.1

end JsonTemplate
