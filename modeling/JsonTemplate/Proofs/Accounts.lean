import JsonTemplate.Proofs.Excerpt
import JsonTemplate.Proofs.OneShot
import JsonTemplate.Proofs.Pieces
import Mathlib.Data.List.Induction

/-!
# The account of a table

A table is used to record expressions and blocks, one by one or all those of a text, and to put
expressions back. Whatever a run of uses is, each comes to recording some entries or to losing those
whose placeholders are met (`Placeholders.Use.perform_eq`). So no placeholder is given out twice, a
block stays for good, an expression stays until its placeholder is met, and the sizes of the table
are what was recorded less what was met (`Placeholders.account`).
-/

namespace JsonTemplate

open Text Json

namespace Placeholders

/-! ## Entries -/

/-- What can be recorded. -/
inductive Entry
  | expression (t : List Char)
  | block (b : RepeatBlock)

namespace Entry

def isExpression : Entry → Bool
  | .expression _ => true
  | .block _ => false

@[simp] theorem isExpression_expression (t : List Char) : (expression t).isExpression = true :=
  rfl

@[simp] theorem isExpression_block (b : RepeatBlock) : (block b).isExpression = false :=
  rfl

/-- Records an entry, and gives its placeholder. -/
def record : Entry → Placeholders → String × Placeholders
  | .expression t, p => p.recordExpression t
  | .block b, p => p.recordBlock b

end Entry

/-- The table with the entries recorded, one after the other. -/
def recordEntries (p : Placeholders) (es : List Entry) : Placeholders :=
  es.foldl (fun p e => (e.record p).2) p

theorem recordEntries_append (p : Placeholders) (es es' : List Entry) :
    p.recordEntries (es ++ es') = (p.recordEntries es).recordEntries es' :=
  List.foldl_append

/-- A concatenation is an expression to record. -/
def recorded? : Piece → Option Entry
  | .other _ => none
  | .chained chain =>
    if chain.operands.any Operand.isToken ∧ 1 < chain.operands.length then
      some (.expression chain.text)
    else none

/-- The expressions that are recorded from a text. -/
def expressionsOf (t : List Char) : List Entry :=
  (Piece.cut t).filterMap recorded?

/-- The blocks that are recorded from a text with a table. -/
def blocksOf (t : List Char) (p : Placeholders) : List Entry :=
  (Excerpt.ofText t).cuttings.map fun c => .block (c.block p.nextBlock)

theorem filterMap_cons_toList {α β : Type} (f : α → Option β) (a : α) (l : List α) :
    (a :: l).filterMap f = (f a).toList ++ l.filterMap f := by
  rw [List.filterMap_cons]
  cases f a <;> rfl

theorem quoteAll_snd : ∀ (pieces : List Piece) (p : Placeholders),
    (Piece.quoteAll pieces p).2 = p.recordEntries (pieces.filterMap recorded?)
  | [], _ => rfl
  | piece :: rest, p => by
    have hpiece : (piece.toPlain p).2 = p.recordEntries ((recorded? piece).toList) := by
      cases piece with
      | other c => rfl
      | chained chain =>
        rw [Piece.toPlain, Chain.toPlain, recorded?]
        by_cases htoken : chain.operands.any Operand.isToken = true
        · by_cases hlength : 1 < chain.operands.length
          · rw [if_pos htoken, if_pos hlength, if_pos ⟨htoken, hlength⟩]
            rfl
          · rw [if_pos htoken, if_neg hlength, if_neg fun h => hlength h.2]
            rfl
        · rw [if_neg htoken, if_neg fun h => htoken h.1]
          rfl
    rw [Piece.quoteAll, quoteAll_snd rest, hpiece, filterMap_cons_toList, recordEntries_append]

theorem quoteChains_snd (t : List Char) (p : Placeholders) :
    (quoteChains t p).2 = p.recordEntries (expressionsOf t) := by
  rw [quoteChains_eq, quoteAll_snd, expressionsOf]

theorem recordAll_eq (p : Placeholders) (cuttings : List Cutting) :
    p.recordAll cuttings
      = p.recordEntries (cuttings.map fun c => .block (c.block p.nextBlock)) := by
  induction cuttings using List.reverseRecOn with
  | nil => rw [recordAll_nil]; rfl
  | append_singleton cuttings c ih =>
    have hrecord := congrArg Prod.snd (p.recordBlock_recordAll cuttings c)
    rw [List.map_append, recordEntries_append, ← ih]
    exact hrecord.symm

theorem extract_snd (t : List Char) (p : Placeholders) :
    (RepeatBlock.extract t p).2 = p.recordEntries (blocksOf t p) := by
  rw [Excerpt.extract_eq, recordAll_eq, blocksOf]

/-! ## Uses -/

/-- What a table is used for. -/
inductive Use
  | record (e : Entry)
  | extract (t : List Char)
  | quoteChains (t : List Char)
  | toPlainJson (t : List Char)
  | reinstate (v : Json)

namespace Use

/-- The table after its use. -/
def perform : Use → Placeholders → Placeholders
  | .record e, p => (e.record p).2
  | .extract t, p => (RepeatBlock.extract t p).2
  | .quoteChains t, p => (JsonTemplate.quoteChains t p).2
  | .toPlainJson t, p => (JsonTemplate.toPlainJson t p).2
  | .reinstate v, p => (p.reinstate v).2

/-- What is recorded. -/
def entries : Use → Placeholders → List Entry
  | .record e, _ => [e]
  | .extract t, p => blocksOf t p
  | .quoteChains t, _ => expressionsOf t
  | .toPlainJson t, p => blocksOf t p ++ expressionsOf (RepeatBlock.extract t p).1
  | .reinstate _, _ => []

/-- The strings that are met when expressions are put back. -/
def met : Use → List String
  | .reinstate v => v.values
  | _ => []

/-- Every use is recording entries, or forgetting what is met. -/
theorem perform_eq (u : Use) (p : Placeholders) :
    u.perform p = (p.recordEntries (u.entries p)).without u.met := by
  cases u with
  | record e => exact (without_nil _).symm
  | extract t => exact (extract_snd t p).trans (without_nil _).symm
  | quoteChains t => exact (quoteChains_snd t p).trans (without_nil _).symm
  | toPlainJson t =>
    have hboth : (JsonTemplate.toPlainJson t p).2
        = p.recordEntries (blocksOf t p ++ expressionsOf (RepeatBlock.extract t p).1) := by
      rw [recordEntries_append, ← extract_snd, ← quoteChains_snd]
      rfl
    exact hboth.trans (without_nil _).symm
  | reinstate v => exact reinstate_eq_without p v

theorem entries_or_met (u : Use) (p : Placeholders) : u.entries p = [] ∨ u.met = [] := by
  cases u with
  | reinstate v => exact .inl rfl
  | _ => exact .inr rfl

end Use

/-- The table after a run of uses. -/
def performAll : List Use → Placeholders → Placeholders
  | [], p => p
  | u :: us, p => performAll us (u.perform p)

/-- What a run of uses meets. -/
def metIn (us : List Use) : List String :=
  us.flatMap Use.met

/-- An entry that was recorded, with the placeholder that was given out for it, and the uses of the
table since. -/
structure Issue where
  placeholder : String
  entry : Entry
  later : List Use

/-- The entries with their placeholders. -/
def issueAll (later : List Use) : List Entry → Placeholders → List Issue
  | [], _ => []
  | e :: es, p => ⟨(e.record p).1, e, later⟩ :: issueAll later es (e.record p).2

/-- All that a run of uses records. -/
def issues : List Use → Placeholders → List Issue
  | [], _ => []
  | u :: us, p => issueAll us (u.entries p) p ++ issues us (u.perform p)

namespace Issue

/-- The placeholder was met since. -/
def Consumed (i : Issue) : Prop :=
  i.placeholder ∈ metIn i.later

instance : DecidablePred Consumed :=
  fun i => inferInstanceAs (Decidable (i.placeholder ∈ metIn i.later))

/-- What is left of an expression. -/
def expression? (i : Issue) : Option (String × String) :=
  match i.entry with
  | .expression t => if i.Consumed then none else some (i.placeholder, String.ofList (trim t))
  | .block _ => none

/-- A block under its name. -/
def block? (i : Issue) : Option (String × RepeatBlock) :=
  match i.entry with
  | .expression _ => none
  | .block b => (Placeholder.blockName? i.placeholder.toList).map fun name => (String.ofList name, b)

end Issue

/-! ## The placeholders -/

/-- The placeholders that entries get where the next numbers are `m` for an expression and `n` for a
block. -/
def placeholdersFrom (m n : Nat) : List Entry → List String
  | [] => []
  | .expression _ :: es => Placeholder.ofExpression m :: placeholdersFrom (m + 1) n es
  | .block _ :: es => Placeholder.ofBlock (Placeholder.blockName n) :: placeholdersFrom m (n + 1) es

theorem mem_placeholdersFrom {x : String} : ∀ {es : List Entry} {m n : Nat},
    x ∈ placeholdersFrom m n es → (∃ k, m ≤ k ∧ x = Placeholder.ofExpression k)
      ∨ ∃ k, n ≤ k ∧ x = Placeholder.ofBlock (Placeholder.blockName k)
  | .expression _ :: es, m, n, h => by
    rcases List.mem_cons.1 h with rfl | h
    · exact .inl ⟨m, Nat.le_refl m, rfl⟩
    · rcases mem_placeholdersFrom h with ⟨k, hk, hx⟩ | hx
      · exact .inl ⟨k, Nat.le_of_succ_le hk, hx⟩
      · exact .inr hx
  | .block _ :: es, m, n, h => by
    rcases List.mem_cons.1 h with rfl | h
    · exact .inr ⟨n, Nat.le_refl n, rfl⟩
    · rcases mem_placeholdersFrom h with hx | ⟨k, hk, hx⟩
      · exact .inl hx
      · exact .inr ⟨k, Nat.le_of_succ_le hk, hx⟩

/-- No number is used twice, and the two kinds do not mix. -/
theorem nodup_placeholdersFrom : ∀ (es : List Entry) (m n : Nat),
    (placeholdersFrom m n es).Nodup
  | [], _, _ => List.nodup_nil
  | .expression _ :: es, m, n => by
    refine List.nodup_cons.2 ⟨fun h => ?_, nodup_placeholdersFrom es (m + 1) n⟩
    rcases mem_placeholdersFrom h with ⟨k, hk, hx⟩ | ⟨k, -, hx⟩
    · have := Placeholder.ofExpression_injective hx
      omega
    · exact Placeholder.ofBlock_ne_ofExpression _ _ hx.symm
  | .block _ :: es, m, n => by
    refine List.nodup_cons.2 ⟨fun h => ?_, nodup_placeholdersFrom es m (n + 1)⟩
    rcases mem_placeholdersFrom h with ⟨k, -, hx⟩ | ⟨k, hk, hx⟩
    · exact Placeholder.ofBlock_ne_ofExpression _ _ hx
    · have := Placeholder.ofBlock_blockName_injective hx
      omega

theorem placeholdersFrom_append (es' : List Entry) : ∀ (es : List Entry) (p : Placeholders),
    placeholdersFrom p.nextExpression p.nextBlock (es ++ es')
      = placeholdersFrom p.nextExpression p.nextBlock es
        ++ placeholdersFrom (p.recordEntries es).nextExpression (p.recordEntries es).nextBlock es'
  | [], _ => rfl
  | .expression t :: es, p =>
    congrArg (Placeholder.ofExpression p.nextExpression :: ·)
      (placeholdersFrom_append es' es (p.recordExpression t).2)
  | .block b :: es, p =>
    congrArg (Placeholder.ofBlock (Placeholder.blockName p.nextBlock) :: ·)
      (placeholdersFrom_append es' es (p.recordBlock b).2)

theorem placeholders_issueAll (later : List Use) : ∀ (es : List Entry) (p : Placeholders),
    (issueAll later es p).map Issue.placeholder
      = placeholdersFrom p.nextExpression p.nextBlock es
  | [], _ => rfl
  | .expression t :: es, p =>
    congrArg (Placeholder.ofExpression p.nextExpression :: ·)
      (placeholders_issueAll later es (p.recordExpression t).2)
  | .block b :: es, p =>
    congrArg (Placeholder.ofBlock (Placeholder.blockName p.nextBlock) :: ·)
      (placeholders_issueAll later es (p.recordBlock b).2)

theorem entries_issueAll (later : List Use) : ∀ (es : List Entry) (p : Placeholders),
    (issueAll later es p).map Issue.entry = es
  | [], _ => rfl
  | e :: es, p => congrArg (e :: ·) (entries_issueAll later es (e.record p).2)

/-- The placeholders of a run are numbered one after the other. -/
theorem placeholders_issues : ∀ (us : List Use) (p : Placeholders),
    (issues us p).map Issue.placeholder
      = placeholdersFrom p.nextExpression p.nextBlock ((issues us p).map Issue.entry)
  | [], _ => rfl
  | u :: us, p => by
    rw [issues, List.map_append, List.map_append, entries_issueAll, placeholdersFrom_append,
      placeholders_issueAll, placeholders_issues us (u.perform p), u.perform_eq]
    rfl

theorem nodup_placeholders_issues (us : List Use) (p : Placeholders) :
    ((issues us p).map Issue.placeholder).Nodup := by
  rw [placeholders_issues]
  exact nodup_placeholdersFrom _ _ _

/-! ## The table -/

theorem expressions_recordEntries (us : List Use) : ∀ (es : List Entry) (p : Placeholders),
    ((p.recordEntries es).without (metIn us)).expressions
      = (p.without (metIn us)).expressions ++ (issueAll us es p).filterMap Issue.expression?
  | [], p => (List.append_nil _).symm
  | .expression t :: es, p => by
    have hes := expressions_recordEntries us es (p.recordExpression t).2
    have hnew : ((p.recordExpression t).2.without (metIn us)).expressions
        = (p.without (metIn us)).expressions ++ (Issue.expression?
          ⟨Placeholder.ofExpression p.nextExpression, .expression t, us⟩).toList := by
      by_cases hmet : Placeholder.ofExpression p.nextExpression ∈ metIn us
      · simp [without, recordExpression, List.filter_append, Issue.expression?, Issue.Consumed,
          hmet]
      · simp [without, recordExpression, List.filter_append, Issue.expression?, Issue.Consumed,
          hmet]
    rw [hnew, List.append_assoc] at hes
    rw [issueAll, filterMap_cons_toList]
    exact hes
  | .block b :: es, p => expressions_recordEntries us es (p.recordBlock b).2

/-- The expressions of a table are those there were that have not been met, and those recorded that
have not been met since. -/
theorem expressions_performAll : ∀ (us : List Use) (p : Placeholders),
    (performAll us p).expressions
      = (p.without (metIn us)).expressions ++ (issues us p).filterMap Issue.expression?
  | [], p => by
    have hp : p.without (metIn []) = p := p.without_nil
    rw [hp]
    exact (List.append_nil _).symm
  | u :: us, p => by
    have hmet : metIn (u :: us) = u.met ++ metIn us := rfl
    rw [performAll, expressions_performAll us, issues, List.filterMap_append, u.perform_eq,
      without_without, hmet]
    rcases u.entries_or_met p with hnone | hnone
    · rw [hnone]
      rfl
    · rw [hnone, List.nil_append, expressions_recordEntries, List.append_assoc]

theorem blocks_recordEntries (later : List Use) : ∀ (es : List Entry) (p : Placeholders),
    (p.recordEntries es).blocks = p.blocks ++ (issueAll later es p).filterMap Issue.block?
  | [], p => (List.append_nil _).symm
  | .expression t :: es, p => blocks_recordEntries later es (p.recordExpression t).2
  | .block b :: es, p => by
    have hes := blocks_recordEntries later es (p.recordBlock b).2
    have hnew : Issue.block? ⟨(p.recordBlock b).1, .block b, later⟩
        = some (Placeholder.blockName p.nextBlock, b) := by
      simp [Issue.block?, recordBlock, Placeholder.blockName?_ofBlock]
    rw [issueAll, filterMap_cons_toList]
    refine hes.trans ?_
    rw [Entry.record, hnew]
    simp [recordBlock]

/-- The blocks of a table are those there were and those recorded since. -/
theorem blocks_performAll : ∀ (us : List Use) (p : Placeholders),
    (performAll us p).blocks = p.blocks ++ (issues us p).filterMap Issue.block?
  | [], p => (List.append_nil _).symm
  | u :: us, p => by
    have hu : (u.perform p).blocks = (p.recordEntries (u.entries p)).blocks := by
      rw [u.perform_eq]
      rfl
    rw [performAll, blocks_performAll us, issues, List.filterMap_append, hu,
      blocks_recordEntries us, List.append_assoc]

/-! ## Finding what was recorded -/

/-- What is filed under a key is found, if nothing else is filed under it. -/
theorem lookup_filterMap {α β : Type} {f : α → Option (String × β)} {l : List α} {a : α}
    {key : String} (ha : a ∈ l) (hkey : ∀ r, f a = some r → r.1 = key)
    (hunique : ∀ b ∈ l, ∀ r, f b = some r → r.1 = key → b = a) :
    (l.filterMap f).lookup key = (f a).map Prod.snd := by
  cases hlookup : (l.filterMap f).lookup key with
  | some v =>
    obtain ⟨front, back, heq, -⟩ := List.lookup_eq_some_iff.1 hlookup
    have hmem : (key, v) ∈ l.filterMap f := by
      rw [heq]
      simp
    obtain ⟨b, hb, hbv⟩ := List.mem_filterMap.1 hmem
    rw [← hunique b hb _ hbv rfl, hbv, Option.map_some]
  | none =>
    cases hr : f a with
    | none => rfl
    | some r =>
      have hne := List.lookup_eq_none_iff.1 hlookup r (List.mem_filterMap.2 ⟨a, ha, hr⟩)
      simp [hkey r hr] at hne

theorem eq_of_placeholder_eq {us : List Use} {p : Placeholders} {i j : Issue}
    (hi : i ∈ issues us p) (hj : j ∈ issues us p) (h : i.placeholder = j.placeholder) : i = j :=
  List.inj_on_of_nodup_map (nodup_placeholders_issues us p) hi hj h

theorem exists_record_of_mem_issueAll {later : List Use} {i : Issue} : ∀ {es : List Entry}
    {p : Placeholders}, i ∈ issueAll later es p → ∃ q, i.placeholder = (i.entry.record q).1
  | e :: es, p, h => by
    rcases List.mem_cons.1 h with rfl | h
    · exact ⟨p, rfl⟩
    · exact exists_record_of_mem_issueAll h

/-- A placeholder is what the table gave out when the entry was recorded. -/
theorem exists_record_of_mem_issues {i : Issue} : ∀ {us : List Use} {p : Placeholders},
    i ∈ issues us p → ∃ q, i.placeholder = (i.entry.record q).1
  | u :: us, p, h => by
    rcases List.mem_append.1 h with h | h
    · exact exists_record_of_mem_issueAll h
    · exact exists_record_of_mem_issues h

/-- A block is filed under the name in its placeholder. -/
theorem placeholder_of_block? {i : Issue} {r : String × RepeatBlock} (h : i.block? = some r) :
    i.placeholder = Placeholder.ofBlock r.1 := by
  unfold Issue.block? at h
  split at h
  · cases h
  · obtain ⟨name, hname, rfl⟩ := Option.map_eq_some_iff.1 h
    exact Placeholder.eq_ofBlock_of_blockName? hname

theorem block?_of_mem_issues {us : List Use} {p : Placeholders} {i : Issue} (hi : i ∈ issues us p)
    {b : RepeatBlock} (hb : i.entry = .block b) :
    ∃ n, i.placeholder = Placeholder.ofBlock (Placeholder.blockName n)
      ∧ i.block? = some (Placeholder.blockName n, b) := by
  obtain ⟨q, hq⟩ := exists_record_of_mem_issues hi
  rw [hb] at hq
  refine ⟨q.nextBlock, hq, ?_⟩
  simp [Issue.block?, hb, hq, Entry.record, recordBlock, Placeholder.blockName?_ofBlock]

/-- Of the expressions those are left that are not consumed. -/
theorem length_filterMap_expression? : ∀ is : List Issue,
    (is.filterMap Issue.expression?).length
        + is.countP (fun i => i.entry.isExpression ∧ i.Consumed)
      = is.countP (·.entry.isExpression)
  | [] => rfl
  | ⟨x, .block b, later⟩ :: is => by
    have hnone : Issue.expression? ⟨x, .block b, later⟩ = none := rfl
    simpa [filterMap_cons_toList, hnone] using length_filterMap_expression? is
  | ⟨x, .expression t, later⟩ :: is => by
    have his := length_filterMap_expression? is
    rw [filterMap_cons_toList, List.length_append, List.countP_cons, List.countP_cons]
    by_cases hc : Issue.Consumed ⟨x, .expression t, later⟩
    · have hnone : Issue.expression? ⟨x, .expression t, later⟩ = none := if_pos hc
      simp only [hnone, hc, Entry.isExpression_expression, Option.toList_none, List.length_nil,
        and_self, decide_true, if_true]
      omega
    · have hsome : Issue.expression? ⟨x, .expression t, later⟩
          = some (x, String.ofList (trim t)) := if_neg hc
      simp only [hsome, hc, Entry.isExpression_expression, Option.toList_some,
        List.length_singleton, and_false, decide_false, Bool.false_eq_true, if_false, if_true]
      omega

/-- What a table holds after any run of uses, from an empty one on, is the account of what was
recorded. No two entries, of either kind, got the same placeholder. An expression is found under its
own, without the blanks around it, until the placeholder is met in a value into which expressions
are put back, and never after. A block is found under its name for good. There are as many
expressions in the table as were recorded, less those that were met, and as many blocks as were
recorded. -/
theorem account (us : List Use) :
    ((issues us {}).map Issue.placeholder).Nodup ∧
      (∀ i ∈ issues us {}, ∀ t, i.entry = .expression t →
        (performAll us {}).expression? i.placeholder
          = if i.Consumed then none else some (String.ofList (trim t))) ∧
      (∀ i ∈ issues us {}, ∀ b, i.entry = .block b →
        ∃ name, i.placeholder = Placeholder.ofBlock name
          ∧ (performAll us {}).block? name = some b) ∧
      (performAll us {}).expressions.length
          + (issues us {}).countP (fun i => i.entry.isExpression ∧ i.Consumed)
        = (issues us {}).countP (·.entry.isExpression) ∧
      (performAll us {}).blocks.length = (issues us {}).countP (!·.entry.isExpression) := by
  have hexpressions : (performAll us {}).expressions = (issues us {}).filterMap Issue.expression? :=
    expressions_performAll us {}
  have hblocks : (performAll us {}).blocks = (issues us {}).filterMap Issue.block? :=
    blocks_performAll us {}
  refine ⟨nodup_placeholders_issues us {}, fun i hi t ht => ?_, fun i hi b hb => ?_, ?_, ?_⟩
  · have hkey : ∀ j : Issue, ∀ r, j.expression? = some r → r.1 = j.placeholder := by
      intro j r hr
      unfold Issue.expression? at hr
      split at hr
      · split at hr
        · cases hr
        · cases hr
          rfl
      · cases hr
    have hfind := lookup_filterMap hi (hkey i) fun j hj r hr hri =>
      eq_of_placeholder_eq hj hi ((hkey j r hr).symm.trans hri)
    rw [expression?, hexpressions, hfind, Issue.expression?, ht]
    dsimp only
    split <;> rfl
  · obtain ⟨n, hn, hfiled⟩ := block?_of_mem_issues hi hb
    have hkey : ∀ r, i.block? = some r → r.1 = Placeholder.blockName n := by
      intro r hr
      rw [hfiled] at hr
      cases hr
      rfl
    have hfind := lookup_filterMap hi hkey fun j hj r hr hrn =>
      eq_of_placeholder_eq hj hi ((placeholder_of_block? hr).trans (hrn ▸ hn.symm))
    refine ⟨_, hn, ?_⟩
    rw [block?, hblocks, hfind, hfiled, Option.map_some]
  · rw [hexpressions, length_filterMap_expression?]
  · rw [hblocks, List.length_filterMap_eq_countP]
    refine List.countP_congr fun i hi => ?_
    cases he : i.entry with
    | expression t => simp [Issue.block?, he, Entry.isExpression]
    | block b =>
      obtain ⟨n, -, hfiled⟩ := block?_of_mem_issues hi he
      simp [hfiled, Entry.isExpression]

/-- An expression that was put back leaves its number unused. -/
example :
    let us : List Use := [.toPlainJson "[\"a\" + @b, [@c] @repeat(2)]".toList,
      .reinstate (.string "__EXPR_0__"), .record (.expression " @d ".toList)]
    (issues us {}).map Issue.placeholder = ["__REPEAT_ARRAY_0__", "__EXPR_0__", "__EXPR_1__"]
      ∧ (performAll us {}).expressions = [("__EXPR_1__", "@d")]
      ∧ (performAll us {}).blocks = [("ARRAY_0", ⟨"[@c]", 2⟩)] := by
  decide +kernel

end Placeholders

end JsonTemplate
