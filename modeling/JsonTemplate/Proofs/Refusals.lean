import JsonTemplate.Proofs.Seams

/-!
# A source that refuses every call

From a source that has every method and refuses each call, every directive gets its own name. The
value of a string is then its words in a row (`gives_resolveString_refusing`), and the value of an
outline has the outline's names and the words of its strings (`Outline.gives_evaluate_refusing`):
whatever could be left in a result shows in this one.
-/

namespace JsonTemplate

variable {σ : Type}

/-- The source that has every method, and of which every call fails. -/
def ValueSource.refusing : ValueSource Unit where
  has _ _ := return true
  call namespaceName method _ := throw (.unknownMethod namespaceName method)

namespace ValueSource

theorem answers_refusing : refusing.Answers :=
  fun _ _ _ _ => ⟨_, rfl⟩

theorem unmarked_refusing : refusing.Unmarked := by
  intro _ _ _ _ _ _ h
  cases h

end ValueSource

open ValueSource

namespace Resolving

/-- A string with each directive replaced by its name. -/
def fallback (s : String) : String :=
  String.ofList (words s).flatten

/-- A string that is marked when its directives fall back on their names is not harmless. -/
theorem harmless_of_unmarked_fallback {s : String} (h : Unmarked (fallback s).toList) :
    Harmless s := by
  intro w hw
  rw [fallback, String.toList_ofList] at h
  exact h.part (List.infix_of_mem_flatten hw)

theorem gives_call_refusing (namespaceName method : String) (args : List Json) :
    Gives (fun r => ∃ e, r = .error e) (call refusing namespaceName method args) := by
  intro l r l' h
  cases h
  exact ⟨_, rfl⟩

theorem gives_callAdapted_refusing (namespaceName method : String) (args : List Json) :
    Gives (fun r => ∃ e, r = .error e) (callAdapted refusing namespaceName method args) := by
  unfold callAdapted
  refine (gives_call_refusing _ _ _).bind fun r hr => ?_
  obtain ⟨e, rfl⟩ := hr
  dsimp only
  split
  · exact gives_call_refusing _ _ _
  · exact gives_pure ⟨e, rfl⟩

theorem gives_resolve_refusing (d : Directive) :
    Gives (fun v => v = .string d.path) (resolve refusing d) := by
  obtain ⟨name, _ | method, args⟩ := d
  · change Gives (fun v => v = .string name) (resolveName refusing name)
    unfold resolveName
    split
    · refine (gives_call_refusing _ _ _).bind fun r hr => ?_
      obtain ⟨e, rfl⟩ := hr
      exact (gives_true _).bind fun _ _ => gives_pure rfl
    · refine (gives_true _).bind fun _ _ => (gives_call_refusing _ _ _).bind fun r hr => ?_
      obtain ⟨e, rfl⟩ := hr
      exact gives_pure rfl
  · change Gives (fun v => v = .string (name ++ "." ++ method))
      (resolveQualified refusing name method args)
    unfold resolveQualified
    refine (gives_true _).bind fun b _ => ?_
    split
    · refine (gives_callAdapted_refusing _ _ _).bind fun r hr => ?_
      obtain ⟨e, rfl⟩ := hr
      exact (gives_true _).bind fun _ _ => gives_pure rfl
    · exact (gives_true _).bind fun _ _ => gives_pure rfl

theorem gives_segmentText_refusing (segment : Segment) :
    Gives (fun part => part.toList = segment.word) (segmentText refusing segment) := by
  cases segment with
  | literal s => exact gives_pure rfl
  | verbatim s => exact gives_pure rfl
  | directive d =>
    refine (gives_resolve_refusing d).bind fun v hv => gives_pure ?_
    rw [hv]
    rfl

theorem gives_segmentTexts_refusing : ∀ segments : List Segment,
    Gives (fun parts => parts.map String.toList = segments.map Segment.word)
      (segmentTexts refusing segments)
  | [] => gives_pure rfl
  | segment :: rest => by
    refine (gives_segmentText_refusing segment).bind fun part hpart => ?_
    refine (gives_segmentTexts_refusing rest).bind fun parts hparts => gives_pure ?_
    rw [List.map_cons, List.map_cons, hpart, hparts]

theorem gives_resolveExpression_refusing (t : List Char) :
    Gives (fun v => v = .string (String.ofList (expressionWords t).flatten))
      (resolveExpression refusing t) := by
  unfold resolveExpression expressionWords
  have hjoined : Gives
      (fun v => v = Json.string (String.ofList ((Expression.parse t).map Segment.word).flatten))
      (do return Json.string (String.join (← segmentTexts refusing (Expression.parse t)))) := by
    refine (gives_segmentTexts_refusing _).bind fun parts hparts => gives_pure ?_
    rw [← hparts, ← List.flatMap_def, ← String.toList_join, String.ofList_toList]
  rcases hp : Expression.parse t with _ | ⟨g, _ | ⟨g', rest⟩⟩
  · rwa [hp] at hjoined
  · have hsingle : String.ofList [t].flatten = String.ofList t := by rw [List.flatten_singleton]
    cases g with
    | literal s => exact gives_pure (congrArg Json.string hsingle.symm)
    | verbatim s => exact gives_pure (congrArg Json.string hsingle.symm)
    | directive d =>
      refine (gives_resolve_refusing d).mono fun v hv => ?_
      rw [hv, List.flatten_singleton, String.ofList_toList]
  · rw [hp] at hjoined
    cases g <;> exact hjoined

/-- A string resolves to its words. -/
theorem gives_resolveString_refusing (s : String) :
    Gives (fun v => v = .string (fallback s)) (resolveString refusing s) := by
  unfold resolveString fallback words
  dsimp only
  cases hd : if Token.isToken s.toList then Directive.parse? s.toList else none with
  | some d =>
    refine (gives_resolve_refusing d).mono fun v hv => ?_
    rw [hv, List.flatten_singleton, String.ofList_toList]
  | none =>
    dsimp only
    split
    · exact gives_resolveExpression_refusing _
    · exact gives_pure (by rw [List.flatten_singleton, String.ofList_toList])

end Resolving

namespace Outline

open Resolving

mutual

/-- The names of an outline's value are the outline's, and its strings are the words of the
outline's. -/
theorem gives_evaluate_refusing : ∀ o : Outline,
    Gives (fun v => v.values = o.texts.map fallback ∧ v.keys = o.keys) (o.evaluate refusing)
  | .null | .bool _ | .number _ => by
    rw [evaluate]
    exact gives_pure ⟨rfl, rfl⟩
  | .text s => by
    rw [evaluate]
    refine (gives_resolveString_refusing s).mono fun v hv => ?_
    rw [hv]
    exact ⟨rfl, rfl⟩
  | .array items => by
    rw [evaluate]
    exact (gives_evaluateItems_refusing items).bind fun vs hvs => gives_pure hvs
  | .object fields => by
    rw [evaluate]
    exact (gives_evaluateFields_refusing fields).bind fun fs hfs => gives_pure hfs
  | .unread made name error => by
    rw [evaluate]
    exact (gives_true _).bind fun _ _ => (gives_true _).bind fun _ _ => gives_pure ⟨rfl, rfl⟩

theorem gives_evaluateItems_refusing : ∀ os : List Outline,
    Gives (fun vs => Json.valuesOfItems vs = (textsOfItems os).map fallback
      ∧ Json.keysOfItems vs = keysOfItems os) (evaluateItems refusing os)
  | [] => by
    rw [evaluateItems]
    exact gives_pure ⟨rfl, rfl⟩
  | o :: rest => by
    rw [evaluateItems, textsOfItems, keysOfItems]
    refine (gives_evaluate_refusing o).bind fun v hv => ?_
    refine (gives_evaluateItems_refusing rest).bind fun vs hvs => gives_pure ?_
    rw [Json.valuesOfItems_cons, Json.keysOfItems_cons, hv.1, hv.2, hvs.1, hvs.2, List.map_append]
    exact ⟨rfl, rfl⟩

theorem gives_evaluateFields_refusing : ∀ os : List (String × Outline),
    Gives (fun fs => Json.valuesOfFields fs = (textsOfFields os).map fallback
      ∧ Json.keysOfFields fs = keysOfFields os) (evaluateFields refusing os)
  | [] => by
    rw [evaluateFields]
    exact gives_pure ⟨rfl, rfl⟩
  | (key, o) :: rest => by
    rw [evaluateFields, textsOfFields, keysOfFields]
    refine (gives_evaluate_refusing o).bind fun v hv => ?_
    refine (gives_evaluateFields_refusing rest).bind fun fs hfs => gives_pure ?_
    rw [Json.valuesOfFields_cons, Json.keysOfFields_cons, hv.1, hv.2, hfs.1, hfs.2,
      List.map_append]
    exact ⟨rfl, rfl⟩

end

end Outline

end JsonTemplate
