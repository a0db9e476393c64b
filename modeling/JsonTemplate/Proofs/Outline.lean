import JsonTemplate.Proofs.Answers
import JsonTemplate.Proofs.Run

/-!
# Outlines

What an expansion evaluates is settled before a source is asked anything. The outline of a text is
its value with the repeat blocks unrolled, each copy read anew, and the other strings as they
stand. Expanding a value is making its outline and evaluating the outline from left to right
(`follows_expandValueTo`), and so is a round (`Template.run_expandOnce_of_outline`).
-/

namespace JsonTemplate

variable {σ α β γ δ ε ζ : Type}

/-- A value whose blocks are unrolled and whose other strings are not yet resolved. -/
inductive Outline
  | null
  | bool (b : Bool)
  | number (n : JsonNumber)
  | text (s : String)
  | array (items : List Outline)
  | object (fields : List (String × Outline))
  /-- A block that turned out not to be JSON, with the copies made until then. -/
  | unread (made : List Outline) (name : String) (error : TemplateError)

namespace Outline

section Evaluation

variable (source : ValueSource σ)

mutual

/-- Resolves the strings of an outline from left to right. -/
def evaluate : Outline → Resolving σ Json
  | .null => return .null
  | .bool b => return .bool b
  | .number n => return .number n
  | .text s => Resolving.resolveString source s
  | .array items => do return .array (← evaluateItems items)
  | .object fields => do return .object (← evaluateFields fields)
  | .unread made name error => do
    let _ ← evaluateItems made
    Resolving.report
      ⟨.blockFailure, name, "Could not parse repeat block: " ++ error.message⟩
    return .array []

def evaluateItems : List Outline → Resolving σ (List Json)
  | [] => return []
  | item :: rest => do
    let v ← evaluate item
    return v :: (← evaluateItems rest)

def evaluateFields : List (String × Outline) → Resolving σ Json.Fields
  | [] => return []
  | (key, value) :: rest => do
    let v ← evaluate value
    return (key, v) :: (← evaluateFields rest)

end

end Evaluation

end Outline

/-- The making of an outline: it reads templates with the placeholders there are, and gives nothing
where blocks nest too deep. -/
abbrev Outlining (α : Type) := StateT Placeholders Option α

namespace Outlining

section Values

variable (f : String → Outlining Outline)

mutual

/-- The outline of a value, given that of its strings. -/
def value : Json → Outlining Outline
  | .null => return .null
  | .bool b => return .bool b
  | .number n => return .number n
  | .string s => f s
  | .array vs => do return .array (← items vs)
  | .object fs => do return .object (← fields fs)

def items : List Json → Outlining (List Outline)
  | [] => return []
  | v :: rest => do
    let o ← value v
    return o :: (← items rest)

def fields : Json.Fields → Outlining (List (String × Outline))
  | [] => return []
  | (key, v) :: rest => do
    let o ← value v
    return (key, o) :: (← fields rest)

end

end Values

def readTemplate (t : List Char) : Outlining (Except TemplateError Json) := fun p =>
  some (Placeholders.readTemplate t p)

/-- The outline of the first item of a block's array, if there is one. -/
def item (f : String → Outlining Outline) (template : List Char) :
    Outlining (Except TemplateError (Option Outline)) := do
  match ← readTemplate template with
  | .error e => return .error e
  | .ok v =>
    match v.firstItem? with
    | some v => return .ok (some (← value f v))
    | none => return .ok none

/-- The outlines of copies, and the error that ended them, if there was one. -/
def copies (make : Outlining (Except TemplateError (Option Outline))) :
    (count : Nat) → Outlining (List Outline × Option TemplateError)
  | 0 => return ([], none)
  | n + 1 => do
    match ← make with
    | .error e => return ([], some e)
    | .ok none => return ([], none)
    | .ok (some o) =>
      let (os, e) ← copies make n
      return (o :: os, e)

def block (f : String → Outlining Outline) (name : String) (block : RepeatBlock) :
    Outlining Outline := do
  match ← copies (item f block.template.toList) block.count with
  | (os, none) => return .array os
  | (os, some e) => return .unread os name e

/-- The outline of a string, with blocks within blocks down to a depth. -/
def string : (depth : Nat) → String → Outlining Outline
  | 0, s => do
    match (← get).namedBlock? s with
    | some _ => failure
    | none => return .text s
  | depth + 1, s => do
    match (← get).namedBlock? s with
    | some (name, b) => block (string depth) name b
    | none => return .text s

theorem run_bind (o : Outlining β) (k : β → Outlining γ) (p : Placeholders) :
    (o >>= k).run p = match o.run p with
      | some (b, p) => (k b).run p
      | none => none := by
  simp only [StateT.run_bind]
  cases o.run p <;> rfl

end Outlining

namespace Outline

open Resolving

variable {source : ValueSource σ}

section Closed

variable {P : ∀ α : Type, Resolving σ α → Prop} (h : Closed source P)
include h

mutual

/-- What is true of every resolution is true of the evaluation of every outline. -/
theorem closed_evaluate : ∀ o : Outline, P _ (o.evaluate source)
  | .null | .bool _ | .number _ => by
    rw [evaluate]
    exact h.pure _
  | .text s => by
    rw [evaluate]
    exact h.resolveString s
  | .array items => by
    rw [evaluate]
    exact h.bind (closed_evaluateItems items) fun _ => h.pure _
  | .object fields => by
    rw [evaluate]
    exact h.bind (closed_evaluateFields fields) fun _ => h.pure _
  | .unread made name error => by
    rw [evaluate]
    exact h.bind (closed_evaluateItems made) fun _ => h.bind (h.report _) fun _ => h.pure _

theorem closed_evaluateItems : ∀ os : List Outline, P _ (evaluateItems source os)
  | [] => by
    rw [evaluateItems]
    exact h.pure _
  | o :: rest => by
    rw [evaluateItems]
    exact h.bind (closed_evaluate o) fun _ =>
      h.bind (closed_evaluateItems rest) fun _ => h.pure _

theorem closed_evaluateFields : ∀ os : List (String × Outline), P _ (evaluateFields source os)
  | [] => by
    rw [evaluateFields]
    exact h.pure _
  | (key, o) :: rest => by
    rw [evaluateFields]
    exact h.bind (closed_evaluate o) fun _ =>
      h.bind (closed_evaluateFields rest) fun _ => h.pure _

end

end Closed

/-- An outline has a value if all calls are answered. -/
theorem returns_evaluate (h : source.Answers) (o : Outline) : (o.evaluate source).Returns :=
  closed_evaluate (closed_returns h) o

end Outline

open Expanding

/-- `x` makes an outline by `o` and evaluates it by `eval`; where the outline nests too deep, `x`
halts, if not before because of a call. -/
structure Follows (source : ValueSource σ) (x : Expanding σ α) (o : Outlining β)
    (eval : β → Resolving σ α) : Prop where
  run_of_some : ∀ {l p b p'}, o.run p = some (b, p') →
    x.run ⟨l, p⟩ = ((eval b).run l).map fun (a, l) => (a, ⟨l, p'⟩)
  run_of_none : ∀ {l p}, o.run p = none →
    ∃ halt, x.run ⟨l, p⟩ = .error halt ∧ (source.Answers → halt = .endlessNesting)

/-- After `first`, `k` makes an outline by `o` and evaluates it; `eval` evaluates both. -/
structure Continues (source : ValueSource σ) (first : Resolving σ α) (k : α → Expanding σ γ)
    (o : Outlining δ) (eval : δ → Resolving σ γ) : Prop where
  run_of_some : ∀ {p d p'}, o.run p = some (d, p') → ∃ rest : α → Resolving σ γ,
    eval d = first >>= rest ∧ ∀ {l a l'}, first.run l = .ok (a, l') →
      (k a).run ⟨l', p⟩ = ((rest a).run l').map fun (c, l) => (c, ⟨l, p'⟩)
  run_of_none : ∀ {p}, o.run p = none → (source.Answers → first.Returns)
    ∧ ∀ {l a l'}, first.run l = .ok (a, l') →
      ∃ halt, (k a).run ⟨l', p⟩ = .error halt ∧ (source.Answers → halt = .endlessNesting)

namespace Continues

variable {source : ValueSource σ} {first : Resolving σ α} {k : α → Expanding σ γ}

/-- No more outline is made. -/
theorem settled {d : δ} {eval : δ → Resolving σ γ} (rest : α → Resolving σ γ)
    (h : eval d = first >>= rest)
    (hk : ∀ {l a l'} (p : Placeholders), first.run l = .ok (a, l') →
      (k a).run ⟨l', p⟩ = ((rest a).run l').map fun (c, l) => (c, ⟨l, p⟩)) :
    Continues source first k (Pure.pure d) eval where
  run_of_some {p _ _} hs := by
    cases hs
    exact ⟨rest, h, hk p⟩
  run_of_none hn := by cases hn

/-- The rest of the outline is made, and goes into the whole one by `g`. -/
theorem follows {o : Outlining δ} (ev : α → δ → Resolving σ γ) (g : δ → ζ)
    {eval : ζ → Resolving σ γ} (hr : source.Answers → first.Returns)
    (h : ∀ d, eval (g d) = first >>= fun a => ev a d)
    (hk : ∀ {l a l'}, first.run l = .ok (a, l') → Follows source (k a) o (ev a)) :
    Continues source first k (do return g (← o)) eval where
  run_of_some hs := by
    rw [Outlining.run_bind] at hs
    split at hs
    · rename_i d p' ho
      cases hs
      exact ⟨fun a => ev a d, h d, fun ha => (hk ha).run_of_some ho⟩
    · cases hs
  run_of_none hn := by
    rw [Outlining.run_bind] at hn
    split at hn
    · cases hn
    · rename_i ho
      exact ⟨hr, fun ha => (hk ha).run_of_none ho⟩

end Continues

namespace Follows

variable {source : ValueSource σ} {x : Expanding σ α} {o : Outlining β} {eval : β → Resolving σ α}

theorem pure (source : ValueSource σ) {a : α} {b : β} (h : eval b = Pure.pure a) :
    Follows source (Pure.pure a) (Pure.pure b) eval where
  run_of_some hs := by
    cases hs
    rw [h]
    rfl
  run_of_none hn := by cases hn

theorem bind (hx : Follows source x o eval) {k : α → Expanding σ γ} {k' : β → Outlining δ}
    {eval' : δ → Resolving σ γ} (hk : ∀ b, Continues source (eval b) k (k' b) eval') :
    Follows source (x >>= k) (o >>= k') eval' where
  run_of_some {l p _ _} hs := by
    rw [Outlining.run_bind] at hs
    split at hs
    · rename_i b p₁ ho
      obtain ⟨rest, heval, hrest⟩ := (hk b).run_of_some hs
      rw [Expanding.run_bind, hx.run_of_some ho, heval, Resolving.run_bind]
      rcases hb : (eval b).run l with halt | ⟨a, l₁⟩
      · rfl
      · exact hrest hb
    · cases hs
  run_of_none {l p} hn := by
    rw [Outlining.run_bind] at hn
    split at hn
    · rename_i b p₁ ho
      obtain ⟨hr, hrest⟩ := (hk b).run_of_none hn
      rw [Expanding.run_bind, hx.run_of_some ho]
      rcases hb : (eval b).run l with halt | ⟨a, l₁⟩
      · refine ⟨halt, rfl, fun ha => ?_⟩
        obtain ⟨_, hret⟩ := hr ha l
        rw [hb] at hret
        cases hret
      · exact hrest hb
    · rename_i ho
      obtain ⟨halt, hrun, ha⟩ := hx.run_of_none (l := l) ho
      exact ⟨halt, by rw [Expanding.run_bind, hrun], ha⟩

theorem map (hx : Follows source x o eval) (f : α → γ) (g : β → δ) {eval' : δ → Resolving σ γ}
    (h : ∀ b, eval' (g b) = do return f (← eval b)) :
    Follows source (do return f (← x)) (do return g (← o)) eval' :=
  hx.bind fun b => .settled (fun a => return f a) (h b) fun _ _ => rfl

theorem seq (hx : Follows source x o eval) {y : Expanding σ γ} {o' : Outlining δ}
    {eval' : δ → Resolving σ γ} (hy : Follows source y o' eval')
    (hr : source.Answers → ∀ b, (eval b).Returns)
    (f : α → γ → ε) (g : β → δ → ζ) {eval'' : ζ → Resolving σ ε}
    (h : ∀ b d, eval'' (g b d) = do
      let a ← eval b
      return f a (← eval' d)) :
    Follows source (do let a ← x; return f a (← y)) (do let b ← o; return g b (← o')) eval'' :=
  hx.bind fun b => .follows (fun a d => do return f a (← eval' d)) (g b) (fun ha => hr ha b) (h b)
    fun {_ a _} _ => by
      have hmap : Follows source (do return f a (← y)) (do return id (← o'))
          fun d => do return f a (← eval' d) := hy.map (f a) id fun _ => rfl
      rwa [show (do return id (← o')) = o' from bind_pure o'] at hmap

theorem reading (source : ValueSource σ) (t : List Char)
    {k : Except TemplateError Json → Expanding σ α} {k' : Except TemplateError Json → Outlining β}
    (h : ∀ r, Follows source (k r) (k' r) eval) :
    Follows source (readTemplate t >>= k) (Outlining.readTemplate t >>= k') eval where
  run_of_some {_ p _ _} hs :=
    (h (Placeholders.readTemplate t p).1).run_of_some (p := (Placeholders.readTemplate t p).2) hs
  run_of_none {_ p} hn :=
    (h (Placeholders.readTemplate t p).1).run_of_none (p := (Placeholders.readTemplate t p).2) hn

theorem looking {k : Session σ → Expanding σ α} {k' : Placeholders → Outlining β}
    (h : ∀ l q, Follows source (k ⟨l, q⟩) (k' q) eval) :
    Follows source (get >>= k) (get >>= k') eval where
  run_of_some {l p _ _} hs := (h l p).run_of_some hs
  run_of_none {l p} hn := (h l p).run_of_none hn

end Follows

section Values

variable {source : ValueSource σ} {g : String → Expanding σ Json} {f : String → Outlining Outline}

mutual

theorem follows_traverseStrings
    (h : ∀ s, Follows source (g s) (f s) (Outline.evaluate source)) : ∀ v : Json,
      Follows source (v.traverseStrings g) (Outlining.value f v) (Outline.evaluate source)
  | .null | .bool _ | .number _ => .pure source (by rw [Outline.evaluate])
  | .string s => h s
  | .array items =>
    (follows_traverseItems h items).map Json.array Outline.array
      fun os => by rw [Outline.evaluate]
  | .object fields =>
    (follows_traverseFields h fields).map Json.object Outline.object
      fun os => by rw [Outline.evaluate]

theorem follows_traverseItems
    (h : ∀ s, Follows source (g s) (f s) (Outline.evaluate source)) : ∀ items : List Json,
      Follows source (Json.traverseItems g items) (Outlining.items f items)
        (Outline.evaluateItems source)
  | [] => .pure source (by rw [Outline.evaluateItems])
  | item :: rest =>
    (follows_traverseStrings h item).seq (follows_traverseItems h rest)
      (fun ha => Outline.returns_evaluate ha) List.cons List.cons
      fun o os => by rw [Outline.evaluateItems]

theorem follows_traverseFields
    (h : ∀ s, Follows source (g s) (f s) (Outline.evaluate source)) : ∀ fields : Json.Fields,
      Follows source (Json.traverseFields g fields) (Outlining.fields f fields)
        (Outline.evaluateFields source)
  | [] => .pure source (by rw [Outline.evaluateFields])
  | (key, value) :: rest =>
    (follows_traverseStrings h value).seq (follows_traverseFields h rest)
      (fun ha => Outline.returns_evaluate ha) (fun v vs => (key, v) :: vs)
      (fun o os => (key, o) :: os) fun o os => by rw [Outline.evaluateFields]

end

/-- What becomes of the outline of an item that a block's template may have. -/
def Outline.evaluateItem (source : ValueSource σ) :
    Except TemplateError (Option Outline) → Resolving σ (Except TemplateError (Option Json))
  | .error e => return .error e
  | .ok none => return .ok none
  | .ok (some o) => do return .ok (some (← o.evaluate source))

theorem follows_expandItem (h : ∀ s, Follows source (g s) (f s) (Outline.evaluate source))
    (template : List Char) :
    Follows source (expandItem g template) (Outlining.item f template)
      (Outline.evaluateItem source) := by
  refine .reading source template fun r => ?_
  cases r with
  | error e => exact .pure source rfl
  | ok v =>
    dsimp only
    cases v.firstItem? with
    | none => exact .pure source rfl
    | some item =>
      exact (follows_traverseStrings h item).map (fun v => Except.ok (some v))
        (fun o => Except.ok (some o)) fun o => rfl

/-- What becomes of the outlines of copies: their values come after those of the copies made
before, unless an error ends them. -/
def Outline.evaluateCopies (source : ValueSource σ) (made : List Json) :
    List Outline × Option TemplateError → Resolving σ (Except TemplateError (List Json))
  | (os, none) => do return .ok (made.reverse ++ (← evaluateItems source os))
  | (os, some e) => do
    let _ ← evaluateItems source os
    return .error e

theorem Outline.evaluateCopies_cons (o : Outline) (made : List Json) (os : List Outline)
    (e : Option TemplateError) :
    evaluateCopies source made (o :: os, e)
      = o.evaluate source >>= fun v => evaluateCopies source (v :: made) (os, e) := by
  cases e <;> simp [evaluateCopies, evaluateItems]

/-- What becomes of the outlines of the copies after one that was made. -/
def Outline.evaluateRest (source : ValueSource σ) (made : List Json) :
    Except TemplateError (Option Json) →
      List Outline × Option TemplateError → Resolving σ (Except TemplateError (List Json))
  | .ok (some v) => evaluateCopies source (v :: made)
  | _ => evaluateCopies source made

theorem follows_copies {make : Expanding σ (Except TemplateError (Option Json))}
    {make' : Outlining (Except TemplateError (Option Outline))}
    (h : Follows source make make' (Outline.evaluateItem source)) :
    ∀ (n : Nat) (made : List Json),
      Follows source (copies make n made) (Outlining.copies make' n)
        (Outline.evaluateCopies source made)
  | 0, made => .pure source (by simp [Outline.evaluateCopies, Outline.evaluateItems])
  | n + 1, made => by
    refine h.bind fun r => ?_
    rcases r with e | _ | o
    · refine .settled (fun _ => return .error e) ?_ fun p ha => ?_
      · simp [Outline.evaluateCopies, Outline.evaluateItems, Outline.evaluateItem]
      · cases ha
        rfl
    · refine .settled (fun _ => return .ok made.reverse) ?_ fun p ha => ?_
      · simp [Outline.evaluateCopies, Outline.evaluateItems, Outline.evaluateItem]
      · cases ha
        rfl
    · refine .follows (Outline.evaluateRest source made) (fun r => (o :: r.1, r.2))
        (fun ha => ?_) (fun r => ?_) fun ha => ?_
      · exact (Outline.returns_evaluate ha o).bind fun _ => Resolving.returns_pure _
      · rw [Outline.evaluateCopies_cons, Outline.evaluateItem]
        simp [Outline.evaluateRest]
      · rw [Outline.evaluateItem, Resolving.run_bind] at ha
        split at ha
        · cases ha
          exact follows_copies h n _
        · cases ha

/-- What a block gives for its copies, or for the error that ended them. -/
def Outline.evaluateBlock (name : String) : Except TemplateError (List Json) → Resolving σ Json
  | .ok items => return .array items
  | .error e => do
    Resolving.report ⟨.blockFailure, name, "Could not parse repeat block: " ++ e.message⟩
    return .array []

theorem follows_expandBlock (h : ∀ s, Follows source (g s) (f s) (Outline.evaluate source))
    (name : String) (block : RepeatBlock) :
    Follows source (expandBlock g name block) (Outlining.block f name block)
      (Outline.evaluate source) := by
  refine (follows_copies (follows_expandItem h block.template.toList) block.count []).bind
    fun r => ?_
  obtain ⟨os, _ | e⟩ := r
  · refine .settled (Outline.evaluateBlock name) ?_ fun {_ a _} p _ => ?_
    · simp [Outline.evaluate, Outline.evaluateCopies, Outline.evaluateBlock]
    · cases a <;> rfl
  · refine .settled (Outline.evaluateBlock name) ?_ fun {_ a _} p _ => ?_
    · simp [Outline.evaluate, Outline.evaluateCopies, Outline.evaluateBlock]
    · cases a <;> rfl

end Values

theorem Follows.resolving_text (source : ValueSource σ) (s : String) :
    Follows source (resolving (Resolving.resolveString source s)) (Pure.pure (Outline.text s))
      (Outline.evaluate source) where
  run_of_some hs := by
    cases hs
    rw [run_resolving, Outline.evaluate]
  run_of_none hn := by cases hn

theorem follows_expandString (source : ValueSource σ) : ∀ (depth : Nat) (s : String),
    Follows source (expandString source depth s) (Outlining.string depth s)
      (Outline.evaluate source)
  | 0, s => by
    refine .looking fun l q => ?_
    dsimp only
    cases q.namedBlock? s with
    | none => exact .resolving_text source s
    | some _ => exact ⟨fun hs => (by cases hs), fun _ => ⟨_, rfl, fun _ => rfl⟩⟩
  | depth + 1, s => by
    refine .looking fun l q => ?_
    dsimp only
    rcases q.namedBlock? s with _ | ⟨name, block⟩
    · exact .resolving_text source s
    · exact follows_expandBlock (follows_expandString source depth) name block

/-- Replacing the strings of a value is making its outline and evaluating that. -/
theorem follows_expandValueTo (source : ValueSource σ) (depth : Nat) (v : Json) :
    Follows source (expandValueTo source depth v) (Outlining.value (Outlining.string depth) v)
      (Outline.evaluate source) :=
  follows_traverseStrings (follows_expandString source depth) v

/-! ## Rounds -/

namespace Template

variable {source : ValueSource σ} {t : List Char} {v : Json} {p : Placeholders} {allowance : Nat}

/-- A round evaluates the outline of what it reads. -/
theorem run_expandOnce_of_outline {p' : Placeholders} {o : Outline}
    (hread : Placeholders.readTemplate t {} = (.ok v, p))
    (ho : (Outlining.value (Outlining.string (p.blocks.length + allowance)) v).run p
      = some (o, p')) (s : σ) :
    (expandOnce source t allowance).run.run s = ((o.evaluate source).run ⟨s, []⟩).map
      fun (w, l) => (.ok ⟨w, l.diagnostics⟩, l.source) := by
  rw [run_expandOnce, hread]
  dsimp only
  rw [run_expandValue, (follows_expandValueTo source _ v).run_of_some ho]
  cases (o.evaluate source).run ⟨s, []⟩ <;> rfl

variable (source) in
/-- Without an outline a round does not end in a result. -/
theorem run_expandOnce_of_deep (hread : Placeholders.readTemplate t {} = (.ok v, p))
    (ho : (Outlining.value (Outlining.string (p.blocks.length + allowance)) v).run p = none)
    (s : σ) :
    ∃ halt, (expandOnce source t allowance).run.run s = .error halt
      ∧ (source.Answers → halt = .endlessNesting) := by
  obtain ⟨halt, hrun, ha⟩ := (follows_expandValueTo source _ v).run_of_none (l := ⟨s, []⟩) ho
  refine ⟨halt, ?_, ha⟩
  rw [run_expandOnce, hread]
  dsimp only
  rw [run_expandValue, hrun]
  rfl

/-- What a finished round evaluates is settled by the text, before a source is asked. -/
theorem exists_outline_of_run (hread : Placeholders.readTemplate t {} = (.ok v, p)) {s : σ}
    {r : Except TemplateError Expanded × σ}
    (h : (expandOnce source t allowance).run.run s = .ok r) :
    ∃ o p', (Outlining.value (Outlining.string (p.blocks.length + allowance)) v).run p
        = some (o, p')
      ∧ ∃ w l, (o.evaluate source).run ⟨s, []⟩ = .ok (w, l)
        ∧ r = (.ok ⟨w, l.diagnostics⟩, l.source) := by
  cases ho : (Outlining.value (Outlining.string (p.blocks.length + allowance)) v).run p with
  | none =>
    obtain ⟨halt, hrun, -⟩ := run_expandOnce_of_deep source hread ho s
    rw [hrun] at h
    cases h
  | some result =>
    obtain ⟨o, p'⟩ := result
    refine ⟨o, p', rfl, ?_⟩
    rw [run_expandOnce_of_outline hread ho] at h
    rcases hv : (o.evaluate source).run ⟨s, []⟩ with halt | ⟨w, l⟩
    · rw [hv] at h
      cases h
    · rw [hv] at h
      cases h
      exact ⟨w, l, rfl, rfl⟩

end Template

end JsonTemplate
