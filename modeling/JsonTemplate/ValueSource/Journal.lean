import JsonTemplate.ValueSource

/-!
# Journals of calls

Any source can be made to record the calls that it gets, in order. Its answers stay the same
(`run_call_recorded`).
-/

namespace JsonTemplate

structure Call where
  namespaceName : String
  method : String
  args : List Json

/-- What a source is asked: whether it has a method, or for a value. -/
inductive Inquiry
  | has (namespaceName method : String)
  | call (c : Call)

namespace ValueSource

variable {σ : Type}

/-- The source with a record of its calls, the oldest first. A question for a method is no call. -/
def recorded (source : ValueSource σ) : ValueSource (σ × List Call) where
  has namespaceName method := fun (s, calls) =>
    let (answer, s) := (source.has namespaceName method).run s
    (answer, s, calls)
  call namespaceName method args := ExceptT.mk fun (s, calls) => do
    let (answer, s) ← (source.call namespaceName method args).run.run s
    return (answer, s, calls ++ [⟨namespaceName, method, args⟩])

/-- The source with a record of all that it is asked, the oldest first. -/
def watched (source : ValueSource σ) : ValueSource (σ × List Inquiry) where
  has namespaceName method := fun (s, asked) =>
    let (answer, s) := (source.has namespaceName method).run s
    (answer, s, asked ++ [.has namespaceName method])
  call namespaceName method args := ExceptT.mk fun (s, asked) => do
    let (answer, s) ← (source.call namespaceName method args).run.run s
    return (answer, s, asked ++ [.call ⟨namespaceName, method, args⟩])

theorem run_call_recorded (source : ValueSource σ) (namespaceName method : String)
    (args : List Json) (s : σ) (calls : List Call) :
    (source.recorded.call namespaceName method args).run.run (s, calls) =
      ((source.call namespaceName method args).run.run s).map fun (answer, s) =>
        (answer, s, calls ++ [⟨namespaceName, method, args⟩]) := by
  simp only [recorded, ExceptT.run_mk]
  cases h : (source.call namespaceName method args).run.run s <;>
    simp [StateT.run, bind, Except.bind, Except.map, pure, Except.pure] <;>
    simp_all [StateT.run]

end ValueSource

end JsonTemplate
