import JsonTemplate.CommandLine.FileTree
import JsonTemplate.Proofs.Flags
import JsonTemplate.Proofs.Reading
import Mathlib.Tactic.SplitIfs

/-!
# What the command changes

The command writes after it has read its input and expanded it, and in one place: where its output
path leads to. So a run that fails leaves the tree as it was, unless there is no room for the text
that it has begun to write, and a run that succeeds leaves that text there, or has given it to a
device (`execute_changes`). The flags for reporting matter for nothing but standard output.
-/

namespace JsonTemplate.CommandLine

namespace FileTree

/-! ## Writing in a tree -/

theorem lookup_map_replace (entries : List (List String × Entry)) (place p : List String)
    (e : Entry) :
    (entries.map fun (q, old) => (q, if q = place then e else old)).lookup p
      = (entries.lookup p).map fun old => if p = place then e else old := by
  induction entries with
  | nil => rfl
  | cons entry rest ih =>
    obtain ⟨q, old⟩ := entry
    rw [List.map_cons, List.lookup_cons, List.lookup_cons]
    by_cases hq : p = q
    · simp [hq]
    · rw [beq_false_of_ne hq]
      exact ih

theorem lookup_append_single (entries : List (List String × Entry)) (place p : List String)
    (e : Entry) :
    (entries ++ [(place, e)]).lookup p
      = (entries.lookup p).or (if p = place then some e else none) := by
  rw [List.lookup_append]
  by_cases hp : p = place
  · simp [hp]
  · simp [List.lookup_cons, beq_false_of_ne hp, hp]

theorem get?_put_self (tree : FileTree) {place : List String} (h : place ≠ []) (e : Entry) :
    (tree.put place e).get? place = some e := by
  unfold put get?
  rw [if_neg h]
  split_ifs with hold
  · obtain ⟨old, hlookup⟩ := Option.isSome_iff_exists.1 hold
    simp [lookup_map_replace, hlookup]
  · simp [lookup_append_single, Option.not_isSome_iff_eq_none.1 hold]

theorem get?_put_of_ne (tree : FileTree) {place p : List String} (h : p ≠ place) (e : Entry) :
    (tree.put place e).get? p = tree.get? p := by
  unfold put get?
  split_ifs with htop hold
  · rfl
  · simp [lookup_map_replace, h]
  · simp [lookup_append_single, h]

/-- What a write does to a tree: a device takes the text, or the file at the place is made anew,
with all of the text or with what there is room for. -/
inductive Writes (tree : FileTree) (place : List String) (text : String) : Written → Prop
  | device {d : Device} (hdevice : tree.get? place = some (.device d)) {stdout stderr : String}
    (hstdout : stdout = if d = .standardOutput then text else "") :
    Writes tree place text { tree, stdout, stderr }
  | file (hplace : place ≠ []) :
    Writes tree place text { tree := tree.put place (.file text.toUTF8) }
  | full (hplace : place ≠ []) {n : Nat} (hroom : tree.room = some n)
    (hsize : n < text.toUTF8.size) :
    Writes tree place text
      { tree := tree.put place (.file (text.toUTF8.extract 0 n)), failure := some .noSpace }

/-- Nothing differs but what is at a place. -/
def SameBut (tree tree' : FileTree) (place : List String) : Prop :=
  ∀ p ≠ place, tree'.get? p = tree.get? p

theorem Writes.sameBut {tree : FileTree} {place : List String} {text : String} {written : Written}
    (h : tree.Writes place text written) : tree.SameBut written.tree place := by
  cases h with
  | device => exact fun p _ => rfl
  | file | full => exact fun p hp => tree.get?_put_of_ne hp _

theorem writes_store (tree : FileTree) {place : List String} (hplace : place ≠ []) (text : String) :
    Writes tree place text (tree.store place text) := by
  unfold store
  cases hroom : tree.room with
  | none => exact .file hplace
  | some n =>
    dsimp only
    split_ifs with hsize
    · exact .file hplace
    · exact .full hplace hroom (by omega)

theorem writes_of_writeAt {tree : FileTree} {place : List String} {text : String}
    {written : Written} (h : tree.writeAt place text = .ok written) :
    Writes tree place text written := by
  have hplace (hget : tree.get? place ≠ some .directory) : place ≠ [] := by
    rintro rfl
    exact hget rfl
  unfold writeAt at h
  rcases hget : tree.get? place with _ | _ | content | d
  all_goals
    rw [hget] at h
    dsimp only at h
  · obtain ⟨_, -, h⟩ := except_bind_eq_ok h
    split_ifs at h
    cases h
    exact writes_store tree (hplace (by simp [hget])) text
  · cases h
  · split_ifs at h
    cases h
    exact writes_store tree (hplace (by simp [hget])) text
  · split_ifs at h
    cases d <;> cases h <;> exact .device hget rfl

theorem writes_of_write {tree : FileTree} {path text : String} {written : Written}
    (h : tree.write path text = .ok written) :
    ∃ place, tree.target path = .ok place ∧ tree.Writes place text written := by
  obtain ⟨place, htarget, hwritten⟩ := except_bind_eq_ok h
  exact ⟨place, htarget, writes_of_writeAt hwritten⟩

end FileTree

open FileTree

/-- The input can be read and expanded, and a text is its value as the options want it. -/
def Options.Makes (o : Options) (now : Calendar.Instant) (stream : KeyStream) (tree : FileTree)
    (text : String) : Prop :=
  ∃ t r stream', tree.read o.input = .text t
    ∧ (Template.expand (Generator.source now) t.toList).run.run stream = .ok (.ok r, stream')
    ∧ text = o.print r.value

variable (now : Calendar.Instant) (stream : KeyStream) (tree : FileTree)

/-! ## One run -/

theorem report_of_quiet {o : Options} (h : o.quiet = true) (text : String) : o.report text = "" :=
  if_pos h

theorem code_conclude (o : Options) (report : String) (warnings : Nat) (reason : Option String) :
    (conclude o report warnings reason).code = if reason.isSome then 1 else 0 := by
  cases reason <;> rfl

theorem stdout_conclude {o : Options} (h : o.quiet = true) (report : String) (warnings : Nat)
    (reason : Option String) : (conclude o report warnings reason).stdout = report := by
  cases reason with
  | none => simp [conclude, report_of_quiet h]
  | some reason => rfl

theorem stderr_conclude {o o' : Options} (h : o.Alike o') (report report' : String)
    (warnings : Nat) (reason : Option String) :
    (conclude o report warnings reason).stderr = (conclude o' report' warnings reason).stderr := by
  cases reason with
  | none => rfl
  | some reason => rw [conclude, conclude, failure, failure, h.output]

/-- The text of the value is ready to be written, or the run has failed. -/
theorem prepare_cases (o : Options) :
    (∃ outcome, prepare o now stream (tree.read o.input) = .failed outcome ∧ outcome.code ≠ 0
      ∧ (o.quiet = true → outcome.stdout = ""))
    ∨ ∃ text report warnings,
      prepare o now stream (tree.read o.input) = .ready text report warnings
      ∧ o.Makes now stream tree text ∧ (o.quiet = true → report = "") := by
  rcases hread : tree.read o.input with _ | reason | t
  · exact .inl ⟨_, rfl, Nat.one_ne_zero, fun _ => rfl⟩
  · exact .inl ⟨_, rfl, Nat.one_ne_zero, fun _ => rfl⟩
  · unfold prepare
    dsimp only
    rcases hexpand : (Template.expand (Generator.source now) t.toList).run.run stream with
      halt | ⟨e | r, stream'⟩
    · exact .inl ⟨_, rfl, by simp [haltFailure], fun h => report_of_quiet h _⟩
    · exact .inl ⟨_, rfl, Nat.one_ne_zero, fun h => report_of_quiet h _⟩
    · refine .inr ⟨_, _, _, rfl, ⟨t, r, stream', hread, hexpand, rfl⟩, fun h => ?_⟩
      rw [report_of_quiet h, report_of_quiet h, String.append_empty]

/-- A run fails before it has written anything, or it writes the text of the template's value. -/
theorem execute_cases (o : Options) :
    (∃ outcome, execute o now stream tree = (outcome, tree) ∧ outcome.code ≠ 0
      ∧ (o.quiet = true → outcome.stdout = ""))
    ∨ ∃ text place written, o.Makes now stream tree text
      ∧ tree.target o.output = .ok place ∧ tree.Writes place text written
      ∧ (execute o now stream tree).2 = written.tree
      ∧ (execute o now stream tree).1.code = (if written.failure.isSome then 1 else 0)
      ∧ (o.quiet = true → (execute o now stream tree).1.stdout = written.stdout) := by
  unfold execute
  rcases prepare_cases now stream tree o with
    ⟨outcome, hprepare, hfailed⟩ | ⟨text, report, warnings, hprepare, hmakes, hreport⟩
  all_goals
    rw [hprepare]
    dsimp only
  · exact .inl ⟨outcome, rfl, hfailed⟩
  · rcases hwrite : tree.write o.output text with e | written
    · exact .inl ⟨_, rfl, Nat.one_ne_zero, fun h => (stdout_conclude h _ _ _).trans (hreport h)⟩
    · obtain ⟨place, htarget, hwrites⟩ := writes_of_write hwrite
      refine .inr ⟨text, place, written, hmakes, htarget, hwrites, rfl, ?_, fun h => ?_⟩
      · dsimp only
        rw [code_conclude, Option.isSome_map]
      · dsimp only
        rw [stdout_conclude h, hreport h, String.empty_append]

/-! ## Two runs -/

/-- The same before the result is written, but for what goes to standard output. -/
inductive Prepared.Alike : Prepared → Prepared → Prop
  | failed {x y : Outcome} (hcode : x.code = y.code) (hstderr : x.stderr = y.stderr) :
    Alike (.failed x) (.failed y)
  | ready {json report report' : String} {warnings : Nat} :
    Alike (.ready json report warnings) (.ready json report' warnings)

theorem prepare_alike {o o' : Options} (h : o.Alike o') (reading : Reading) :
    (prepare o now stream reading).Alike (prepare o' now stream reading) := by
  obtain ⟨hinput, -, -, hcompact⟩ := h
  cases reading with
  | missing =>
    unfold prepare
    rw [hinput]
    exact .failed rfl rfl
  | failed reason =>
    unfold prepare
    rw [hinput]
    exact .failed rfl rfl
  | text t =>
    unfold prepare
    dsimp only
    rcases (Template.expand (Generator.source now) t.toList).run.run stream with
      halt | ⟨e | r, stream'⟩
    · exact .failed rfl rfl
    · dsimp only
      rw [hinput]
      exact .failed rfl rfl
    · have hprint : o.print r.value = o'.print r.value := by
        rw [Options.print, Options.print, hcompact]
      dsimp only
      rw [hprint]
      exact .ready

/-- The flags for reporting change neither the exit code nor standard error nor the tree. -/
theorem execute_alike {o o' : Options} (h : o.Alike o') :
    (execute o now stream tree).1.code = (execute o' now stream tree).1.code
      ∧ (execute o now stream tree).1.stderr = (execute o' now stream tree).1.stderr
      ∧ (execute o now stream tree).2 = (execute o' now stream tree).2 := by
  have hprepare := prepare_alike now stream h (tree.read o.input)
  unfold execute
  rw [← h.input, ← h.output]
  generalize prepare o now stream (tree.read o.input) = x at hprepare ⊢
  generalize prepare o' now stream (tree.read o.input) = y at hprepare ⊢
  cases hprepare with
  | failed hcode hstderr => exact ⟨hcode, hstderr, rfl⟩
  | @ready json report report' warnings =>
    dsimp only
    rcases tree.write o.output json with e | written
    · exact ⟨rfl, stderr_conclude h report report' warnings _, rfl⟩
    · refine ⟨?_, ?_, rfl⟩
      · dsimp only
        rw [code_conclude, code_conclude]
      · dsimp only
        rw [stderr_conclude h]

/-! ## What has changed -/

variable {now stream tree} {o : Options} {outcome : Outcome} {tree' : FileTree}

/-- Nothing has changed after a failure, unless there was no room for the whole text. -/
theorem unchanged_or_full (hrun : execute o now stream tree = (outcome, tree'))
    (hcode : outcome.code ≠ 0) :
    tree' = tree ∨ ∃ text place n, o.Makes now stream tree text ∧ tree.target o.output = .ok place
      ∧ tree.room = some n ∧ n < text.toUTF8.size ∧ tree.SameBut tree' place := by
  rcases execute_cases now stream tree o with
    ⟨_, hfailed, -, -⟩ | ⟨text, place, written, hmakes, htarget, hwrites, htree, hwritten, -⟩
  · exact .inl (congrArg Prod.snd (hrun.symm.trans hfailed))
  · rw [hrun] at htree hwritten
    subst htree
    have hsame := hwrites.sameBut
    cases hwrites with
    | device | file => exact absurd hwritten hcode
    | full _ hroom hsize => exact .inr ⟨text, place, _, hmakes, htarget, hroom, hsize, hsame⟩

/-- After a success the text is where the output path leads to, or a device has taken it. -/
theorem written_of_code_eq_zero (hrun : execute o now stream tree = (outcome, tree'))
    (hcode : outcome.code = 0) :
    ∃ text place, o.Makes now stream tree text ∧ tree.target o.output = .ok place
      ∧ tree.SameBut tree' place
      ∧ (tree'.get? place = some (.file text.toUTF8)
        ∨ ∃ d, tree.get? place = some (.device d) ∧ tree' = tree) := by
  rcases execute_cases now stream tree o with
    ⟨_, hfailed, hne, -⟩ | ⟨text, place, written, hmakes, htarget, hwrites, htree, hwritten, -⟩
  · cases hrun.symm.trans hfailed
    exact absurd hcode hne
  · rw [hrun] at htree hwritten
    subst htree
    refine ⟨text, place, hmakes, htarget, hwrites.sameBut, ?_⟩
    cases hwrites with
    | device hdevice => exact .inr ⟨_, hdevice, rfl⟩
    | file hplace => exact .inl (tree.get?_put_self hplace _)
    | full => exact absurd (hcode.symm.trans hwritten) Nat.zero_ne_one

/-- A quiet run prints nothing, unless the text itself goes to standard output. -/
theorem stdout_of_quiet (hrun : execute o now stream tree = (outcome, tree'))
    (hquiet : o.quiet = true) :
    outcome.stdout = "" ∨ ∃ place, tree.target o.output = .ok place
      ∧ tree.get? place = some (.device .standardOutput)
      ∧ o.Makes now stream tree outcome.stdout := by
  rcases execute_cases now stream tree o with
    ⟨_, hfailed, -, hprinted⟩ | ⟨text, place, written, hmakes, htarget, hwrites, -, -, hprinted⟩
  · cases hrun.symm.trans hfailed
    exact .inl (hprinted hquiet)
  · have hstdout : outcome.stdout = written.stdout := by
      rw [← hprinted hquiet, hrun]
    cases hwrites with
    | file | full => exact .inl hstdout
    | @device d hdevice stdout _ htext =>
      by_cases hd : d = .standardOutput
      · subst hd
        rw [if_pos rfl] at htext
        exact .inr ⟨place, htarget, hdevice, hstdout.trans htext ▸ hmakes⟩
      · exact .inl (hstdout.trans (htext.trans (if_neg hd)))

/-- A run with a seed changes nothing if it fails, but that a text without enough room is written in
part, at the place where the output path leads to. If it succeeds, that place holds the text of the
value and nothing else has changed, or a device is there and nothing has changed at all. A quiet run
prints nothing, unless its output path leads to standard output. One more argument for reporting, or
one less, makes no difference but for standard output. -/
theorem execute_changes {args : List String} (hargs : Request.ofArguments args = .ok (.expand o))
    {seed : Nat} (hseed : o.seed = some seed)
    (hrun : execute o now (.ofSeed (.ofNat seed)) tree = (outcome, tree')) :
    (outcome.code ≠ 0 → tree' = tree
        ∨ ∃ text place n, o.Makes now (.ofSeed (.ofNat seed)) tree text
          ∧ tree.target o.output = .ok place ∧ tree.room = some n ∧ n < text.toUTF8.size
          ∧ tree.SameBut tree' place)
      ∧ (outcome.code = 0 → ∃ text place, o.Makes now (.ofSeed (.ofNat seed)) tree text
          ∧ tree.target o.output = .ok place ∧ tree.SameBut tree' place
          ∧ (tree'.get? place = some (.file text.toUTF8)
            ∨ ∃ d, tree.get? place = some (.device d) ∧ tree' = tree))
      ∧ (o.quiet = true → outcome.stdout = ""
        ∨ ∃ place, tree.target o.output = .ok place
          ∧ tree.get? place = some (.device .standardOutput)
          ∧ o.Makes now (.ofSeed (.ofNat seed)) tree outcome.stdout)
      ∧ (∀ pre arg post o', args = pre ++ post → "--" ∉ pre → IsReporting arg →
          Request.ofArguments (pre ++ arg :: post) = .ok (.expand o') → o.Alike o')
      ∧ ∀ o', o.Alike o' → o'.seed = some seed
        ∧ ∃ stdout, execute o' now (.ofSeed (.ofNat seed)) tree
          = ({ outcome with stdout }, tree') := by
  refine ⟨unchanged_or_full hrun, written_of_code_eq_zero hrun, stdout_of_quiet hrun, ?_,
    fun o' halike => ⟨halike.seed ▸ hseed, ?_⟩⟩
  · rintro pre arg post o' rfl hpre harg hargs'
    exact alike_of_insert harg hpre (Draft.Alike.refl {}) hargs hargs'
  · have halike := execute_alike now (.ofSeed (.ofNat seed)) tree halike
    rw [hrun] at halike
    obtain ⟨hcode, hstderr, htree⟩ := halike
    refine ⟨(execute o' now (.ofSeed (.ofNat seed)) tree).1.stdout, Prod.ext ?_ htree.symm⟩
    rw [hcode, hstderr]

/-- A template that draws nothing, and a device. -/
def smallTree : FileTree where
  entries := [(["input.jtf"], .file "[1]".toUTF8), (["dev"], .directory),
    (["dev", "stdout"], .device .standardOutput)]

theorem execute_changes_smallTree : ∃ o tree',
    Request.ofArguments ["-q", "--seed", "1"] = .ok (.expand o) ∧ o.seed = some 1
      ∧ execute o ⟨0⟩ (.ofSeed (.ofNat 1)) smallTree = (⟨0, "", ""⟩, tree')
      ∧ (∃ text place, o.Makes ⟨0⟩ (.ofSeed (.ofNat 1)) smallTree text
        ∧ smallTree.target o.output = .ok place ∧ smallTree.SameBut tree' place
        ∧ (tree'.get? place = some (.file text.toUTF8)
          ∨ ∃ d, smallTree.get? place = some (.device d) ∧ tree' = smallTree))
      ∧ ∃ stdout, execute { o with verbose := true } ⟨0⟩ (.ofSeed (.ofNat 1)) smallTree
        = (⟨0, stdout, ""⟩, tree') := by
  have hargs : Request.ofArguments ["-q", "--seed", "1"]
      = .ok (.expand { quiet := true, seed := some 1 }) :=
    eq_ok_of_toOption (by decide +kernel)
  have hcode : (execute { quiet := true, seed := some 1 } ⟨0⟩ (.ofSeed (.ofNat 1)) smallTree).1
      = ⟨0, "", ""⟩ := by
    decide +kernel
  obtain ⟨-, hwritten, -, -, hother⟩ := execute_changes hargs rfl (Prod.ext hcode rfl)
  exact ⟨_, _, hargs, rfl, Prod.ext hcode rfl, hwritten rfl,
    (hother { quiet := true, seed := some 1, verbose := true } ⟨rfl, rfl, rfl, rfl⟩).2⟩

/-- A quiet run can print the text, and a run that fails can leave a new file behind. -/
theorem execute_stdout : ∃ o o',
    Request.ofArguments ["-q", "--seed", "1", "-o", "/dev/stdout"] = .ok (.expand o)
      ∧ Request.ofArguments ["-q", "--seed", "1"] = .ok (.expand o')
      ∧ (execute o ⟨0⟩ (.ofSeed (.ofNat 1)) smallTree).1 = ⟨0, "[\n  1\n]", ""⟩
      ∧ (execute o' ⟨0⟩ (.ofSeed (.ofNat 1)) { smallTree with room := some 0 }).1.code = 1
      ∧ (smallTree.get? ["output.json"]).isSome = false
      ∧ ((execute o' ⟨0⟩ (.ofSeed (.ofNat 1)) { smallTree with room := some 0 }).2.get?
        ["output.json"]).isSome = true := by
  refine ⟨{ quiet := true, seed := some 1, output := "/dev/stdout" },
    { quiet := true, seed := some 1 }, eq_ok_of_toOption (by decide +kernel),
    eq_ok_of_toOption (by decide +kernel), ?_⟩
  decide +kernel

end JsonTemplate.CommandLine
