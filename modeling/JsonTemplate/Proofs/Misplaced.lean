import JsonTemplate.Proofs.Documents
import JsonTemplate.Proofs.Failure
import JsonTemplate.Proofs.LeftMarks
import JsonTemplate.Proofs.Surroundings

/-!
# Misplaced marks

A mark that the search for blocks leaves in the text is a directive like any other one, and so are
its arguments: its chain is read as a string. The template is refused exactly if it is no JSON with
an empty string there, and a mark after a value always makes it so (`Template.expand_leftMark_iff`).
-/

namespace JsonTemplate

open Text Json Json.ReaderState RepeatBlock

/-! ## Chains with a mark -/

/-- A mark is in the operand, and in no literal. -/
def Operand.holdsMark : Operand → Bool
  | .literal _ => false
  | .token t => (firstMark? [] t).isSome

namespace Chain

def holdsMark (chain : Chain) : Bool :=
  chain.operands.any Operand.holdsMark

variable {chain : Chain}

theorem any_isToken_of_holdsMark (h : chain.holdsMark = true) :
    chain.operands.any Operand.isToken = true := by
  obtain ⟨o, ho, hmark⟩ := List.any_eq_true.1 h
  refine List.any_eq_true.2 ⟨o, ho, ?_⟩
  cases o with
  | literal t => cases hmark
  | token t => rfl

theorem holdsMark_of_token {t ds : List Char} (ht : .token t ∈ chain.operands)
    (hds : ds ≠ [] ∧ ∀ d ∈ ds, isDecimalDigit d = true) (hmark : mark ds <:+: t) :
    chain.holdsMark = true := by
  refine List.any_eq_true.2 ⟨_, ht, ?_⟩
  cases h : firstMark? [] t with
  | some r => rw [Operand.holdsMark, h, Option.isSome_some]
  | none => exact absurd hmark (markless_iff.1 (firstMark?_eq_none h) ds hds.1 hds.2)

end Chain

namespace Piece

/-- An empty string in the place of a chain with a mark. -/
def withoutMark : Piece → Piece
  | .other c => .other c
  | .chained chain =>
    .chained (if chain.holdsMark then .ofLiteral (quoted []) else chain)

theorem stands_withoutMark (piece : Piece) : piece.Stands piece.withoutMark := by
  cases piece with
  | other c => exact .same _
  | chained chain =>
    rw [withoutMark]
    split
    · exact .quoted chain []
    · exact .same _

end Piece

/-- The text as it is read, but with empty strings in the place of the chains with a mark. -/
def blankMarks (t : List Char) : List Char :=
  (Piece.quoteAll ((Piece.cut t).map Piece.withoutMark) {}).1

/-! ## Any string will do -/

namespace Json.ReaderState

theorem shape_takeString? (s : ReaderState) (x y : String) :
    (s.shape.takeString? y).map shape = (s.takeString? x).map shape := by
  obtain ⟨frames, phase⟩ := s
  cases phase with
  | value => exact congrArg some (shape_endString frames .value _ _)
  | firstItem => exact congrArg some (shape_endString (.array [] :: frames) .value _ _)
  | nextItem items => exact congrArg some (shape_endString (.array items :: frames) .value _ _)
  | firstKey => exact congrArg some (shape_endString frames (.key []) _ _)
  | nextKey fields => exact congrArg some (shape_endString frames (.key fields) _ _)
  | _ => rfl

/-- Readers of one shape take no string, or go on with one shape after any two. -/
theorem takeString?_cases {s s' : ReaderState} (h : s.shape = s'.shape) (x y : String) :
    (s.takeString? x = none ∧ s'.takeString? y = none)
      ∨ ∃ s₁ s₁', s.takeString? x = some s₁ ∧ s'.takeString? y = some s₁'
        ∧ s₁.shape = s₁'.shape := by
  have htake := shape_takeString? s x y
  rw [h, shape_takeString? s' y y] at htake
  cases h₁ : s.takeString? x with
  | none =>
    rw [h₁, Option.map_none, Option.map_eq_none_iff] at htake
    exact .inl ⟨rfl, htake⟩
  | some s₁ =>
    rw [h₁, Option.map_some] at htake
    obtain ⟨s₁', h₂, hshape⟩ := Option.map_eq_some_iff.1 htake
    exact .inr ⟨s₁, s₁', rfl, h₂, hshape.symm⟩

end Json.ReaderState

namespace Chain

/-- Whether a chain is read as a string does not depend on the numbers of the placeholders. -/
theorem isSome_content? (chain : Chain) (p q : Placeholders) :
    (chain.content? p).isSome = (chain.content? q).isSome := by
  unfold content?
  split
  · rfl
  · rfl
  · split <;> rfl

theorem isSome_content?_of_holdsMark {chain : Chain} (h : chain.holdsMark = true)
    (p : Placeholders) : (chain.content? p).isSome := by
  obtain ⟨x, hx⟩ := exists_content? (any_isToken_of_holdsMark h) p
  rw [hx, Option.isSome_some]

/-- A chain counts as a string if it holds a mark. -/
theorem isSome_content?_withoutMark (chain : Chain) (p q : Placeholders) :
    (content? (if chain.holdsMark then .ofLiteral (quoted []) else chain) p).isSome
      = (chain.content? q).isSome := by
  split
  · rename_i h
    rw [isSome_content?_of_holdsMark h]
    rfl
  · exact isSome_content? chain p q

end Chain

namespace Piece

/-- Pieces make a value with empty strings for the chains with a mark exactly if they make one
without. -/
theorem readAll?_withoutMark : ∀ (ps : List Piece) {s s' : ReaderState}, s.shape = s'.shape →
    ∀ p q : Placeholders, (readAll? (ps.map withoutMark) p s).isSome = (readAll? ps q s').isSome
  | [], s, s', h, p, q => by
    have hclose := shape_close s
    rw [h, shape_close s'] at hclose
    rw [List.map_nil, readAll?, readAll?]
    cases hs : s.close <;> cases hs' : s'.close <;> rw [hs, hs'] at hclose <;>
      first | rfl | cases hclose
  | .other c :: ps, s, s', h, p, q => by
    rw [List.map_cons, withoutMark, readAll?, readAll?]
    rcases step_cases h c with ⟨r, hs, hs'⟩ | ⟨s₁, s₁', hs, hs', h₁⟩
    · rw [hs, hs']
      rfl
    · rw [hs, hs']
      exact readAll?_withoutMark ps h₁ p q
  | .chained chain :: ps, s, s', h, p, q => by
    have hsome := chain.isSome_content?_withoutMark p q
    rw [List.map_cons, withoutMark, readAll?, readAll?]
    cases hx : Chain.content? (if chain.holdsMark then .ofLiteral (quoted []) else chain) p with
    | none =>
      rw [hx, Option.isSome_none, eq_comm, Option.isSome_eq_false_iff,
        Option.isNone_iff_eq_none] at hsome
      rw [hsome]
      rfl
    | some x =>
      rw [hx, Option.isSome_some, eq_comm, Option.isSome_iff_exists] at hsome
      obtain ⟨y, hy⟩ := hsome
      rw [hy, Option.bind_some, Option.bind_some]
      rcases takeString?_cases h x y with ⟨hs, hs'⟩ | ⟨s₁, s₁', hs, hs', h₁⟩
      · rw [hs, hs']
        rfl
      · rw [hs, hs']
        exact readAll?_withoutMark ps h₁ _ _

end Piece

theorem Json.exists_read_eq_error_iff {t : List Char} :
    (∃ e, Json.read t = .error e) ↔ (Json.read t).toOption.isSome = false := by
  cases Json.read t with
  | ok v => simp [Except.toOption]
  | error e => simp [Except.toOption]

/-- A text is refused exactly if it is with empty strings in the place of the chains with a mark. -/
theorem exists_read_quoteChains_iff (t : List Char) (p : Placeholders) :
    (∃ e, Json.read (quoteChains t p).1 = .error e) ↔ ∃ e, Json.read (blankMarks t) = .error e := by
  have hstands : List.Forall₂ Piece.Stands (Piece.cut t) ((Piece.cut t).map Piece.withoutMark) :=
    List.forall₂_map_right_iff.2 (List.forall₂_same.2 fun piece _ => piece.stands_withoutMark)
  rw [exists_read_eq_error_iff, exists_read_eq_error_iff, read_quoteChains, blankMarks,
    toOption_read, readFrom?_quoteAll_of_stands t {} isBetween_initial hstands,
    Piece.readAll?_withoutMark _ rfl {} p]

/-! ## Where a chain may stand -/

/-- The pieces end with a delimiter after which a value or a key is due, blanks aside. -/
def FollowsDelimiter (front : List Piece) : Prop :=
  ∃ (pieces : List Piece) (c : Char) (blanks : List Char), front = pieces ++ .other c :: blanks.map .other
    ∧ c ∈ ['\x7b', '[', ',', ':'] ∧ ∀ b ∈ blanks, isJsonBlank b = true

theorem FollowsDelimiter.cons {front : List Piece} (h : FollowsDelimiter front) (piece : Piece) :
    FollowsDelimiter (piece :: front) := by
  obtain ⟨pieces, c, blanks, rfl, hc, hblanks⟩ := h
  exact ⟨piece :: pieces, c, blanks, rfl, hc, hblanks⟩

namespace Json.ReaderState

theorem openString?_deliver (v : Json) (frames : List Frame) :
    (deliver v frames).openString? = none := by
  rcases frames with _ | ⟨_ | _, frames⟩ <;> rfl

theorem openString?_takeString? {s s' : ReaderState} {x : String}
    (h : s.takeString? x = some s') : s'.openString? = none := by
  obtain ⟨⟨frames, role⟩, -, rfl⟩ := Option.map_eq_some_iff.1 h
  cases role with
  | value => exact openString?_deliver _ _
  | key fields => rfl

theorem opening_of_startValue {frames : List Frame} {c : Char} {s : ReaderState}
    (h : startValue frames c = .ok s) (hs : s.openString?.isSome) : c = '[' ∨ c = '\x7b' := by
  cases starts_of_startValue h with
  | array => exact .inl rfl
  | object => exact .inr rfl
  | string | null | true | false | number => cases hs

/-- A string may begin only after a delimiter, or where it might before a blank. -/
theorem delimiter_of_step {s s' : ReaderState} {c : Char} (h : s.step c = .ok s')
    (hs : s'.openString?.isSome) :
    s.openString?.isSome ∧ isJsonBlank c = true ∨ c ∈ ['\x7b', '[', ',', ':'] := by
  have hsteps := steps_of_step h
  clear h
  induction hsteps with
  | blank hc => exact .inl ⟨hs, hc⟩
  | value h | firstItem h | nextItem h =>
    rcases opening_of_startValue h hs with rfl | rfl <;> exact .inr (by decide)
  | colon | itemComma | fieldComma => exact .inr (by decide)
  | firstKey | nextKey | letter | quoted | digit => cases hs
  | noItems | items | noFields | fields | word =>
    rw [openString?_deliver] at hs
    cases hs
  | unquote =>
    rename_i role _ _ _
    cases role with
    | value =>
      rw [endString, openString?_deliver] at hs
      cases hs
    | key fields => cases hs
  | number _ _ _ ih =>
    refine (ih hs).imp_left fun h => ?_
    rw [openString?_deliver] at h
    cases h.1

end Json.ReaderState

namespace Piece

/-- A chain in a text that is read stands where a string may begin at once, or follows a
delimiter. -/
theorem followsDelimiter_of_readAll? {chain : Chain} {back : List Piece} {v : Json} :
    ∀ {front : List Piece} {p : Placeholders} {s : ReaderState},
      readAll? (front ++ .chained chain :: back) p s = some v →
        (s.openString?.isSome ∧ ∃ blanks : List Char, front = blanks.map .other
          ∧ ∀ b ∈ blanks, isJsonBlank b = true) ∨ FollowsDelimiter front
  | [], p, s, h => by
    obtain ⟨x, -, h⟩ := Option.bind_eq_some_iff.1 h
    obtain ⟨s', htake, -⟩ := Option.bind_eq_some_iff.1 h
    obtain ⟨r, hr, -⟩ := Option.map_eq_some_iff.1 htake
    exact .inl ⟨by rw [hr, Option.isSome_some], [], rfl, List.forall_mem_nil _⟩
  | .other c :: front, p, s, h => by
    obtain ⟨s', hs, h⟩ := Option.bind_eq_some_iff.1 h
    rcases followsDelimiter_of_readAll? h with ⟨hopen, blanks, rfl, hblanks⟩ | hfront
    · rcases delimiter_of_step (eq_ok_of_toOption hs) hopen with ⟨hopen, hc⟩ | hc
      · exact .inl ⟨hopen, c :: blanks, rfl, List.forall_mem_cons.2 ⟨hc, hblanks⟩⟩
      · exact .inr ⟨[], c, blanks, rfl, hc, hblanks⟩
    · exact .inr (hfront.cons _)
  | .chained chain' :: front, p, s, h => by
    obtain ⟨x, -, h⟩ := Option.bind_eq_some_iff.1 h
    obtain ⟨s', htake, h⟩ := Option.bind_eq_some_iff.1 h
    rcases followsDelimiter_of_readAll? h with ⟨hopen, -⟩ | hfront
    · rw [openString?_takeString? htake] at hopen
      cases hopen
    · exact .inr (hfront.cons _)

end Piece

/-! ## The first character of an object -/

/-- A text begins after the extraction as before, unless a block might begin there. -/
theorem RepeatBlock.exists_extract_cons {c : Char} (hc : c ≠ '[') (u : List Char)
    (p : Placeholders) : ∃ v, (extract (c :: u) p).1 = c :: v := by
  have hleft : ∃ bits, (Excerpt.ofText (c :: u)).left = .char c :: bits := by
    refine Excerpt.ofText_induction (P := fun left _ => ∃ bits, left = .char c :: bits)
      ⟨_, rfl⟩ fun front rest cuttings cutting hfront hbrackets _ _ => ?_
    obtain ⟨bits, hbits⟩ := hfront
    obtain ⟨w, hw⟩ := hbrackets
    cases front with
    | nil =>
      rw [List.nil_append, hw, List.cons_append, List.cons.injEq, Bit.char.injEq] at hbits
      exact absurd hbits.1.symm hc
    | cons b front =>
      obtain ⟨rfl, -⟩ := List.cons.inj hbits
      exact ⟨_, rfl⟩
  obtain ⟨bits, hbits⟩ := hleft
  rw [Excerpt.extract_eq, hbits]
  exact ⟨_, rfl⟩

/-- The text of an object begins with its brace. -/
theorem Plan.exists_cons_of_ofText? {t text : List Char}
    (h : Plan.ofText? t = some (.once .object text)) : ∃ u, text = '\x7b' :: u := by
  obtain ⟨⟨container, before, rest⟩, hr, -⟩ := Option.map_eq_some_iff.1 h
  obtain ⟨text', mark, trail, rfl, hembedded⟩ := exists_embedded hr
  rw [hembedded.ofText?, Option.some.injEq] at h
  obtain ⟨c, u, rfl, hc⟩ := hembedded.opening
  obtain ⟨rfl, rfl⟩ : container = .object ∧ c :: u = text := by
    cases container <;> cases hmark : (headMark? mark).map Prod.fst <;> simp [planOf, hmark] at h
    all_goals exact ⟨rfl, h⟩
  rcases Container.eq_of_ofOpening? hc with rfl | rfl
  · exact ⟨u, rfl⟩
  · cases hc

namespace Template

variable {σ : Type}

/-- The template is refused as no JSON. -/
def Refused (source : ValueSource σ) (t : List Char) (s : σ) : Prop :=
  ∃ e s', (expand source t).run.run s = .ok (.error (.badSyntax e), s')

theorem refused_iff {t text : List Char} {container : Container}
    (hplan : Plan.ofText? t = some (.once container text)) (source : ValueSource σ) (s : σ) :
    Refused source t s ↔ ∃ e, Json.read (toPlainJson text {}).1 = .error e := by
  unfold Refused
  rw [expand, hplan]
  simp only [run_once_eq_error_iff, check]
  cases Json.read (toPlainJson text {}).1 with
  | ok v => simp
  | error e => simp

/-- In an object that is not refused, chains follow delimiters. -/
theorem refused_of_not_followsDelimiter {t text : List Char}
    (hplan : Plan.ofText? t = some (.once .object text)) {front back : List Piece} {chain : Chain}
    (hcut : Piece.cut (extract text {}).1 = front ++ .chained chain :: back)
    (hfront : ¬ FollowsDelimiter front) (source : ValueSource σ) (s : σ) :
    Refused source t s := by
  obtain ⟨u, rfl⟩ := Plan.exists_cons_of_ofText? hplan
  obtain ⟨v, hv⟩ := exists_extract_cons (by decide : '\x7b' ≠ '[') u {}
  rw [refused_iff hplan, exists_read_eq_error_iff, toPlainJson]
  dsimp only
  rw [read_quoteChains, Option.isSome_eq_false_iff, Option.isNone_iff_eq_none]
  refine Option.eq_none_iff_forall_not_mem.2 fun w hw => ?_
  rw [hcut] at hw
  rcases Piece.followsDelimiter_of_readAll? hw with ⟨-, blanks, rfl, hblanks⟩ | h
  · -- The brace is before the chain, and is no blank.
    rw [hv, Piece.cut_cons (by decide) (by decide)] at hcut
    cases blanks with
    | nil => cases hcut
    | cons b blanks =>
      obtain ⟨hb, -⟩ := List.cons.inj hcut
      cases hb
      exact absurd (hblanks _ List.mem_cons_self) (by decide)
  · exact hfront h

/-- A mark that is left in an object is in a literal, or makes its chain one that holds a mark. The
template is refused exactly if it is no JSON with empty strings in the place of such chains. One
that follows no delimiter, as after a value, has it refused whatever else is in it. -/
theorem expand_leftMark_iff {t text : List Char}
    (hplan : Plan.ofText? t = some (.once .object text)) :
    (∀ before ds after, (extract text {}).1 = before ++ (mark ds ++ after) → ds ≠ [] →
      (∀ d ∈ ds, isDecimalDigit d = true) → ∃ chain, .chained chain ∈ Piece.cut (extract text {}).1
        ∧ ((∃ u, .literal u ∈ chain.operands ∧ mark ds <:+: u) ∨ chain.holdsMark = true)) ∧
    ∀ (σ : Type) (source : ValueSource σ) (s : σ),
      (Refused source t s ↔ ∃ e, Json.read (blankMarks (extract text {}).1) = .error e) ∧
      ∀ front chain back, Piece.cut (extract text {}).1 = front ++ .chained chain :: back →
        ¬ FollowsDelimiter front → Refused source t s := by
  refine ⟨fun before ds after hrest hne hds => ?_, fun σ source s => ⟨?_, ?_⟩⟩
  · obtain ⟨chain, hchain, o, ho, hmark⟩ := Piece.exists_operand_of_mark hds hrest
    refine ⟨chain, hchain, ?_⟩
    cases o with
    | literal u => exact .inl ⟨u, ho, hmark⟩
    | token u => exact .inr (Chain.holdsMark_of_token ho ⟨hne, hds⟩ hmark)
  · rw [refused_iff hplan]
    exact exists_read_quoteChains_iff _ _
  · intro front chain back hcut hfront
    exact refused_of_not_followsDelimiter hplan hcut hfront source s

/-- A mark after a number. -/
def numbered : List Char :=
  "\x7b\"a\": 1 @repeat(2)\x7d".toList

theorem expand_leftMark_numbered :
    Plan.ofText? numbered = some (.once .object numbered)
      ∧ Refused (ValueSource.constant .null) numbered () := by
  have hplan : Plan.ofText? numbered = some (.once .object numbered) := by decide +kernel
  have hread : ∃ e, Json.read (blankMarks (extract numbered {}).1) = .error e :=
    exists_read_eq_error_iff.2 (by decide +kernel)
  exact ⟨hplan, ((expand_leftMark_iff hplan).2 Unit _ ()).1.2 hread⟩

/-- A mark that is itself the value is taken for a directive. -/
theorem expand_leftMark_accepted : ¬ ∀ (t text before ds after : List Char),
    Plan.ofText? t = some (.once .object text) →
      (extract text {}).1 = before ++ (mark ds ++ after) → ds ≠ [] →
        (∀ d ∈ ds, isDecimalDigit d = true) → EndsOutside before →
          ∀ (σ : Type) (source : ValueSource σ) (s : σ), Refused source t s := by
  intro h
  have hrest : (extract "\x7b\"a\": @repeat(2)\x7d".toList {}).1
      = "\x7b\"a\": ".toList ++ (mark ['2'] ++ ['\x7d']) := by decide +kernel
  obtain ⟨e, s, hrun⟩ := h "\x7b\"a\": @repeat(2)\x7d".toList _ _ _ _ (by decide +kernel) hrest
    (by decide) (List.all_eq_true.1 (by decide)) (by decide) Unit (.constant .null) ()
  have hvalue : ((expand (ValueSource.constant .null)
      "\x7b\"a\": @repeat(2)\x7d".toList).run.run ()).toOption.map
        (fun r => r.1.toOption.isSome) = some true := by
    decide +kernel
  rw [hrun] at hvalue
  cases hvalue

end Template

end JsonTemplate
