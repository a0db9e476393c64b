import JsonTemplate.Proofs.Grammar
import JsonTemplate.Proofs.Passages
import JsonTemplate.Proofs.Undirected
import JsonTemplate.Proofs.Unmarked
import JsonTemplate.ValueSource.Journal

/-!
# Directives as fields

The value of a field may be a directive in quotes or without them. Either is read as the string of
its text, whatever is in its list, and a text that is one token stands for its directive before it
is looked at as an expression. So both templates expand to the value of the directive
(`Template.expand_directiveField`). A repeat mark is looked for before the quotes are, and has to be
excluded.
-/

namespace JsonTemplate

open Text Json Json.ReaderState Piece

/-! ## Quoted texts without marks -/

namespace RepeatBlock

theorem outsideMarks_of_isJsonBlank {c : Char} (h : isJsonBlank c = true) : OutsideMarks c := by
  rcases isJsonBlank_iff.1 h with rfl | rfl | rfl | rfl <;>
    exact outsideMarks_of_notMem (by decide) (by decide) (by decide)

theorem outsideMarks_closing (container : Container) : OutsideMarks container.closing := by
  cases container <;> exact outsideMarks_of_notMem (by decide) (by decide) (by decide)

theorem outsideMarks_backslash : OutsideMarks '\\' :=
  outsideMarks_of_notMem (by decide) (by decide) (by decide)

/-- Escaping makes no mark. -/
theorem Markless.escaped {t : List Char} (h : Markless t) : Markless (t.flatMap escapeChar) := by
  rw [markless_iff] at h ⊢
  intro ds hne hds hi
  have hslash := outsideMarks_backslash ds hds
  have hmark : mark ds = '@' :: ("repeat(".toList ++ ds ++ [')']) := rfl
  rw [hmark] at hslash hi
  exact h ds hne hds (infix_of_infix_escaped (.inl rfl) hslash hi)

end RepeatBlock

/-- The literal that quoting a text makes of it. -/
def Literal.ofText (t : List Char) : Literal :=
  ⟨t.flatMap escapeChar, String.ofList t, read_quoted t⟩

/-! ## Fields -/

/-- An object with one field, without the value of the field: the literal of its name, which has no
sign, and the blanks between the pieces and around the object. -/
structure SoleField where
  key : Literal
  noSign : '@' ∉ key.body
  lead : Blanks
  before : Blanks
  beforeColon : Blanks
  afterColon : Blanks
  after : Blanks
  trail : Blanks

namespace SoleField

variable (f : SoleField)

/-- The object up to the value. -/
def opening : List Char :=
  '\x7b' :: (f.before ++ (f.key.text ++ (f.beforeColon ++ (':' :: (f.afterColon : List Char)))))

/-- The object after the value. -/
def closing : List Char :=
  f.after ++ [Container.object.closing]

/-- The object with a value written out. -/
def object (value : List Char) : List Char :=
  f.opening ++ (value ++ f.closing)

/-- The object with a value written out, and blanks around it. -/
def template (value : List Char) : List Char :=
  f.lead ++ (f.object value ++ f.trail)

theorem ends_closing : Ends f.closing :=
  (ends_cons (by decide) []).blanks f.after

theorem plan_template (value : List Char) :
    Plan.ofText? (f.template value) = some (.once .object (f.object value)) := by
  have hobject : f.object value = '\x7b' :: ((f.opening.tail ++ (value ++ (f.after : List Char)))
      ++ [Container.object.closing]) := by
    simp [object, opening, closing]
  rw [template, hobject]
  exact Plan.ofText?_container rfl _ f.lead f.trail

/-! ## Marks -/

theorem sign_notMem_opening : '@' ∉ f.opening := by
  have hblanks : ∀ b : Blanks, '@' ∉ (b : List Char) := fun b h => absurd (b.2 _ h) (by decide)
  simp [opening, Literal.text, hblanks, f.noSign]

/-- What follows the value begins with a character that is in no mark. -/
theorem marklessBefore_closing {value : List Char} (h : RepeatBlock.Markless value) :
    RepeatBlock.MarklessBefore value f.closing := by
  rw [closing]
  cases hafter : (f.after : List Char) with
  | nil => exact h.before_outside (RepeatBlock.outsideMarks_closing .object) []
  | cons c b =>
    refine h.before_outside (RepeatBlock.outsideMarks_of_isJsonBlank (f.after.2 c ?_)) _
    rw [hafter]
    exact List.mem_cons_self

theorem markless_object {value : List Char} (h : RepeatBlock.MarklessBefore value f.closing) :
    RepeatBlock.Markless (f.object value) := by
  have hblanks : '@' ∉ (f.after : List Char) := fun h => absurd (f.after.2 _ h) (by decide)
  have hclosing : '@' ∉ f.closing := by simp [closing, Container.closing, hblanks]
  rw [← List.append_nil f.closing] at h
  exact RepeatBlock.marklessBefore_append.2
    ⟨RepeatBlock.marklessBefore_of_notMem _ f.sign_notMem_opening,
      RepeatBlock.marklessBefore_append.2 ⟨h, RepeatBlock.marklessBefore_of_notMem _ hclosing⟩⟩

/-! ## Reading -/

/-- The reader after the colon. -/
def due : ReaderState :=
  ⟨[.object [] f.key.value], .value⟩

theorem reaches_opening (rest : List Char) (p : Placeholders) :
    Reaches f.opening rest p .initial p f.due := by
  have hopen : initial.step '\x7b' = .ok ⟨[], .firstKey⟩ := rfl
  have hcolon : step ⟨[], .colon [] f.key.value⟩ ':' = .ok f.due := rfl
  have htake : takeString? ⟨[], .firstKey⟩ f.key.value = some ⟨[], .colon [] f.key.value⟩ := by
    simp [takeString?, openString?, endString]
  have hjoin : ∀ u, splitJoin? ((f.beforeColon : List Char) ++ ':' :: u) = none := by
    intro u
    refine splitJoin?_eq_none fun h => ?_
    rw [skipBlanks_append f.beforeColon.2, skipBlanks_cons rfl] at h
    cases h
  refine Reaches.append (t := ['\x7b']) (passes_char (by decide) (by decide) hopen _ p).toReaches ?_
  refine (passes_blanks (idle_of_openString? rfl) f.before _ p).toReaches.append ?_
  refine (f.key.reaches ?_ htake p).append ?_
  · rw [List.append_assoc]
    exact hjoin _
  refine (passes_blanks (idle_colon [] [] f.key.value) f.beforeColon _ p).toReaches.append ?_
  refine Reaches.append (t := [':']) (passes_char (by decide) (by decide) hcolon _ p).toReaches ?_
  exact (passes_blanks (idle_of_openString? rfl) f.afterColon rest p).toReaches

theorem reaches_closing (v : Json) (rest : List Char) (p : Placeholders) :
    Reaches f.closing rest p (deliver v f.due.frames) p
      ⟨[], .finished (.object [(f.key.value, v)])⟩ := by
  have hclose : (deliver v f.due.frames).step Container.object.closing
      = .ok ⟨[], .finished (.object [(f.key.value, v)])⟩ := rfl
  exact (passes_blanks (idle_deliver v f.due.frames) f.after _ p).toReaches.append
    (passes_char (by decide) (by decide) hclose rest p).toReaches

/-- A value that is read as a string is the one string value of the object. -/
theorem readTemplate_object {value : List Char} {x : String}
    (hmarkless : RepeatBlock.MarklessBefore value f.closing)
    (hvalue : Reaches value f.closing {} f.due {} (deliver (.string x) f.due.frames)) :
    Placeholders.readTemplate (f.object value) {}
      = (.ok (.object [(f.key.value, .string x)]), {}) := by
  have hextract := RepeatBlock.extract_of_markless (f.markless_object hmarkless) {}
  have hclosing := f.reaches_closing (.string x) [] {}
  rw [← List.append_nil f.closing] at hvalue
  have hobject : Reaches (f.object value) [] {} .initial {}
      ⟨[], .finished (.object [(f.key.value, .string x)])⟩ :=
    (f.reaches_opening _ {}).append (hvalue.append hclosing)
  have hreading := hobject.reading
  have htable := hobject.table
  rw [List.append_nil] at hreading htable
  have hread : Json.read (quoteChains (f.object value) {}).1
      = .ok (.object [(f.key.value, .string x)]) := by
    rw [read_eq_ok_iff, ← toOption_read, read_quoteChains, hreading, cut, readAll?]
    rfl
  have hquote : (quoteChains (f.object value) {}).2 = {} := by
    rw [quoteChains_eq, htable, cut, quoteAll]
  simp only [Placeholders.readTemplate, toPlainJson, hextract, hread, hquote,
    Placeholders.reinstate_empty]

theorem readTemplate_literal (l : Literal) (h : RepeatBlock.Markless l.body) :
    Placeholders.readTemplate (f.object l.text) {}
      = (.ok (.object [(f.key.value, .string l.value)]), {}) := by
  have hmarkless : RepeatBlock.MarklessBefore l.text f.closing := by
    have hbody := h.before_outside RepeatBlock.outsideMarks_quote f.closing
    have hquote : ∀ after, RepeatBlock.MarklessBefore ['"'] after :=
      fun after => RepeatBlock.marklessBefore_of_notMem after (by decide)
    exact RepeatBlock.marklessBefore_append (s := ['"']).2
      ⟨hquote _, RepeatBlock.marklessBefore_append.2 ⟨hbody, hquote _⟩⟩
  exact f.readTemplate_object hmarkless
    (l.reaches f.ends_closing.splitJoin?_eq_none (takeString?_value rfl _) {})

theorem readTemplate_token {k : Token} (hk : k.WellFormed) (h : RepeatBlock.Markless k.text) :
    Placeholders.readTemplate (f.object k.text) {}
      = (.ok (.object [(f.key.value, .string (String.ofList k.text))]), {}) :=
  f.readTemplate_object (f.marklessBefore_closing h)
    (Token.reaches hk f.ends_closing (takeString?_value rfl _) {})

end SoleField

/-! ## Expansion -/

namespace Template

variable {σ : Type}

theorem run_expand_soleField (f : SoleField) {value : List Char} {x : String}
    (h : Placeholders.readTemplate (f.object value) {}
      = (.ok (.object [(f.key.value, .string x)]), {}))
    (source : ValueSource σ) (s : σ) :
    (expand source (f.template value)).run.run s
      = ((Resolving.resolveString source x).run ⟨s, []⟩).map fun (v, ledger) =>
        (.ok ⟨.object [(f.key.value, v)], ledger.diagnostics⟩, ledger.source) := by
  have hstring : ∀ depth, (Expanding.expandString source depth x).run ⟨⟨s, []⟩, {}⟩
      = ((Resolving.resolveString source x).run ⟨s, []⟩).map fun (v, ledger) =>
        (v, ⟨ledger, {}⟩) :=
    Expanding.run_expandString_of_unnamed (Placeholders.namedBlock?_empty x)
  rw [expand, f.plan_template]
  simp only [run, run_expandOnce, h, run_expandValue, Expanding.expandValueTo,
    Json.traverseStrings, Json.traverseFields, Expanding.run_bind, hstring]
  cases (Resolving.resolveString source x).run ⟨s, []⟩ <;> rfl

/-- A directive is expanded alike with and without quotes. If a text is one token, with no repeat
mark in it, then an object whose only field is the token, and the object whose only field is the
JSON string of the token, expand to the object whose only field is the value of the directive that
the token is read as: with any source the expansion ends in the state and with the diagnostics that
the resolution of the directive ends with, having made the same calls, and if every call is
answered, it succeeds. -/
theorem expand_directiveField (f : SoleField) {t : List Char} (ht : Token.isToken t = true)
    (hmark : ∀ ds, ds ≠ [] → (∀ d ∈ ds, isDecimalDigit d = true) → ¬ RepeatBlock.mark ds <:+: t) :
    ∃ d, Directive.parse? t = some d ∧ ∀ (σ : Type) (source : ValueSource σ) (s : σ),
      expand source (f.template (quoted t)) = expand source (f.template t) ∧
      (expand source (f.template t)).run.run s = ((Resolving.resolve source d).run ⟨s, []⟩).map
        (fun (v, ledger) =>
          (.ok ⟨.object [(f.key.value, v)], ledger.diagnostics⟩, ledger.source)) ∧
      (expand source.recorded (f.template t)).run.run (s, [])
        = ((Resolving.resolve source.recorded d).run ⟨(s, []), []⟩).map
          (fun (v, ledger) =>
            (.ok ⟨.object [(f.key.value, v)], ledger.diagnostics⟩, ledger.source)) ∧
      (source.Answers → ∃ v ledger, (Resolving.resolve source d).run ⟨s, []⟩ = .ok (v, ledger)) := by
  have hmarkless := RepeatBlock.markless_iff.2 hmark
  obtain ⟨k, hk, rfl⟩ := Token.isToken_iff.1 ht
  have hbare := f.readTemplate_token hk hmarkless
  have hquoted := f.readTemplate_literal (.ofText k.text) hmarkless.escaped
  refine ⟨.ofToken k, Directive.parse?_text hk, fun σ source s => ⟨?_, ?_, ?_, fun h => ?_⟩⟩
  · funext s
    exact (run_expand_soleField f hquoted source s).trans
      (run_expand_soleField f hbare source s).symm
  · rw [run_expand_soleField f hbare, Token.resolveString_text source hk]
  · rw [run_expand_soleField f hbare, Token.resolveString_text source.recorded hk]
  · obtain ⟨⟨v, ledger⟩, hrun⟩ := (Resolving.closed_returns h).resolve (.ofToken k) ⟨s, []⟩
    exact ⟨v, ledger, hrun⟩

theorem sign_notMem_placeholder : '@' ∉ "__EXPR_0__".toList := by
  decide

/-- A field whose name is written like a placeholder. -/
def placeholderField : SoleField where
  key := ⟨"__EXPR_0__".toList, "__EXPR_0__", rfl⟩
  noSign := sign_notMem_placeholder
  lead := .none
  before := .none
  beforeColon := .none
  afterColon := .none
  after := .none
  trail := .none

/-- A list with a quote, a backslash, a sign that joins, an opening bracket and a line feed. -/
def tangled : List Char :=
  "@w(\"\\ + (\n)".toList

theorem expand_directiveField_tangled :
    Token.isToken tangled = true ∧ RepeatBlock.Markless tangled ∧
      (expand (.constant (.bool true)) "\x7b\"__EXPR_0__\":@w(\"\\ + (\n)\x7d".toList).run.run ()
        = .ok (.ok ⟨.object [("__EXPR_0__", .bool true)],
          [⟨.unknownVariable, "w", "Unknown variable: w, using lorem.word"⟩]⟩, ()) ∧
      expand (.constant (.bool true)) "\x7b\"__EXPR_0__\":\"@w(\\\"\\\\ + (\\n)\"\x7d".toList
        = expand (.constant (.bool true)) "\x7b\"__EXPR_0__\":@w(\"\\ + (\n)\x7d".toList := by
  have htoken : Token.isToken tangled = true := by decide
  have hmarkless : RepeatBlock.Markless tangled :=
    ⟨by decide, RepeatBlock.marklessBefore_of_notMem [] (by decide)⟩
  obtain ⟨d, hd, h⟩ := expand_directiveField placeholderField htoken
    (RepeatBlock.markless_iff.1 hmarkless)
  obtain ⟨hquoted, hrun, -, -⟩ := h Unit (.constant (.bool true)) ()
  have hparse : Directive.parse? tangled = some ⟨"w", none, [.string "\"\\ + ("]⟩ := rfl
  obtain rfl := Option.some.inj (hd.symm.trans hparse)
  exact ⟨htoken, hmarkless, hrun, hquoted⟩

end Template

end JsonTemplate
