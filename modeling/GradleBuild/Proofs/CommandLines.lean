import GradleBuild.Proofs.Predictions

/-!
# Command lines

The line of a command is its program and its arguments with blanks between them, and marks around an argument that
holds a blank.  Unless an argument holds a mark itself, nothing is lost: the arguments are what stands between the
blanks outside the marks.  So commands of one program with other arguments have other lines, in the log and in the
errors alike.

* `Command.argumentsIn?`: the arguments, read back from a line.
* `Command.failure_run`: an error of a command names its line.
* `Command.line_determines_arguments`: the arguments in the line of a command are its own.
-/

namespace GradleBuild

/-- The command line that a cause names. -/
def Cause.commandLine? : Cause → Option String
  | spawnFailed line _ | nonZeroExit line _ => some line
  | _ => none

namespace Command

variable {a : String} {args : List String} {w : List Char} {inside : Bool}

/-! ### Reading a line -/

/-- The pieces of a text between the blanks outside marks; `inside` says whether a mark is open at its front. -/
def cutOutside (inside : Bool) : List Char → List (List Char)
  | [] => [[]]
  | c :: cs =>
    if c = ' ' ∧ inside = false then [] :: cutOutside inside cs
    else (cutOutside (if c = '"' then !inside else inside) cs).modifyHead (c :: ·)

/-- A piece without its marks. -/
def unmarked (w : List Char) : String := String.ofList (w.filter (· ≠ '"'))

/-- The arguments in a line behind its program, which the first blank follows. -/
def argumentsIn? (program line : String) : Option (List String) :=
  match (Config.dropStart? program.toList line.toList).map (cutOutside false) with
  | some ([] :: ws) => some (ws.map unmarked)
  | _ => none

/-- A text has a first piece. -/
theorem exists_cutOutside_eq_cons (inside : Bool) (cs : List Char) : ∃ v vs, cutOutside inside cs = v :: vs := by
  induction cs generalizing inside with
  | nil => exact ⟨[], [], rfl⟩
  | cons c cs ih =>
    obtain ⟨v, vs, hv⟩ := ih (if c = '"' then !inside else inside)
    unfold cutOutside
    split
    · exact ⟨[], _, rfl⟩
    · exact ⟨c :: v, vs, by rw [hv]; rfl⟩

/-- What holds no mark, and no blank unless it is inside marks, is cut nowhere. -/
private theorem cutOutside_append (hmark : '"' ∉ w) (hblank : inside = false → ' ' ∉ w) (cs : List Char) :
    cutOutside inside (w ++ cs) = (cutOutside inside cs).modifyHead (w ++ ·) := by
  obtain ⟨v, vs, hv⟩ := exists_cutOutside_eq_cons inside cs
  induction w with
  | nil => simp [hv]
  | cons c w ih =>
    have hc : c ≠ '"' := fun h => hmark (by simp [h])
    have hstay : ¬(c = ' ' ∧ inside = false) := fun h => hblank h.2 (by simp [h.1])
    have hrest := ih (fun h => hmark (List.mem_cons_of_mem _ h)) fun hi h => hblank hi (List.mem_cons_of_mem _ h)
    rw [List.cons_append, cutOutside, if_neg hstay, if_neg hc, hrest, hv]
    rfl

/-- An argument as it is quoted is no more than the front of one piece. -/
private theorem cutOutside_quoteArgument (h : '"' ∉ a.toList) (cs : List Char) :
    cutOutside false ((quoteArgument a).toList ++ cs) =
      (cutOutside false cs).modifyHead ((quoteArgument a).toList ++ ·) := by
  unfold quoteArgument
  split
  · -- the first mark opens, so no blank of the argument cuts, and the second one closes
    obtain ⟨v, vs, hv⟩ := exists_cutOutside_eq_cons false cs
    have hclosed : cutOutside true ('"' :: cs) = ('"' :: v) :: vs := by simp [cutOutside, hv]
    have hinside : cutOutside true (a.toList ++ '"' :: cs) =
        (cutOutside true ('"' :: cs)).modifyHead (a.toList ++ ·) := cutOutside_append h (by simp) _
    rw [hclosed] at hinside
    simp [cutOutside, hinside, hv]
  · rename_i hblank
    exact cutOutside_append h (fun _ => by simpa using hblank) cs

private theorem unmarked_quoteArgument (h : '"' ∉ a.toList) : unmarked (quoteArgument a).toList = a := by
  have hkept : a.toList.filter (· ≠ '"') = a.toList := List.filter_eq_self.2 fun c hc =>
    decide_eq_true fun heq => h (heq ▸ hc)
  unfold unmarked quoteArgument
  split
  · have hmarks : "\"".toList.filter (· ≠ '"') = [] := by decide
    rw [String.toList_append, String.toList_append, List.filter_append, List.filter_append, hkept, hmarks,
      List.nil_append, List.append_nil, String.ofList_toList]
  · rw [hkept, String.ofList_toList]

/-! ### The line of a command -/

/-- The arguments of a command as they stand in its line. -/
def tail (args : List String) : List Char := args.flatMap fun a => ' ' :: (quoteArgument a).toList

private theorem toList_line (c : Command) : c.line.toList = c.program.display.toList ++ tail c.arguments := by
  have hspace : (" " : String).toList = [' '] := rfl
  have htail (w : List Char) (args : List String) :
      [' '].intercalate (w :: (args.map quoteArgument).map String.toList) = w ++ tail args := by
    induction args generalizing w with
    | nil => simp [tail]
    | cons a args ih =>
      have hcons : tail (a :: args) = ' ' :: ((quoteArgument a).toList ++ tail args) := rfl
      rw [List.map_cons, List.map_cons, List.intercalate_cons_cons, ih, hcons]
      simp
  unfold line
  rw [String.toList_intercalate, hspace, List.map_cons, htail]

/-- Behind an empty piece, each argument is a piece of its own. -/
private theorem cutOutside_tail (h : ∀ a ∈ args, '"' ∉ a.toList) :
    cutOutside false (tail args) = [] :: args.map fun a => (quoteArgument a).toList := by
  induction args with
  | nil => rfl
  | cons a args ih =>
    have hcons : tail (a :: args) = ' ' :: ((quoteArgument a).toList ++ tail args) := rfl
    rw [hcons, cutOutside, if_pos ⟨rfl, rfl⟩, cutOutside_quoteArgument (h a (by simp)),
      ih fun a ha => h a (List.mem_cons_of_mem _ ha)]
    simp

/-- The arguments read back from the line of a command are its own, unless they hold marks. -/
private theorem argumentsIn?_line {c : Command} (h : ∀ a ∈ c.arguments, '"' ∉ a.toList) :
    argumentsIn? c.program.display c.line = some c.arguments := by
  have hmap : (c.arguments.map fun a => (quoteArgument a).toList).map unmarked = c.arguments := by
    rw [List.map_map]
    exact (List.map_congr_left fun a ha => unmarked_quoteArgument (h a ha)).trans (List.map_id _)
  unfold argumentsIn?
  rw [toList_line, dropStart?_append, Option.map_some, cutOutside_tail h]
  exact congrArg some hmap

/-! ### Where the line is told -/

/-- However a command fails, the error names its line. -/
theorem failure_run {c : Command} {s : Surroundings} {m m' : Machine} {f : Failure}
    (h : c.run s m = (.error f, m')) : f.cause.commandLine? = some c.line := by
  -- what is logged beforehand depends on whether the command has a directory
  have hstart : ∃ m₁, (do
      let code ← c.start s
      if code = 0 then Run.log .trace .runner "completed" [.of "process" c.displayName]
      else Run.fail (.nonZeroExit c.line code) : Run Unit) m₁ = (.error f, m') := by
    unfold run at h
    cases hd : c.directory with
    | none =>
      rw [hd] at h
      exact ⟨_, h⟩
    | some d =>
      rw [hd] at h
      exact ⟨_, h⟩
  obtain ⟨m₁, h⟩ := hstart
  rcases of_bind h with ⟨code, m₂, -, hcode⟩ | ⟨e, hstart, he⟩
  · split at hcode
    · cases hcode
    · cases hcode
      rfl
  · cases he
    unfold start at hstart
    split at hstart
    · cases hstart
      rfl
    · cases hstart

/-- The line of a command determines its arguments: read back, they are the same, in their order.  It is that line
which is logged when the command is run, and which every error of the run names, so another command of the program
never has it. -/
theorem line_determines_arguments (c : Command) (h : ∀ a ∈ c.arguments, '"' ∉ a.toList) :
    argumentsIn? c.program.display c.line = some c.arguments ∧
      (∀ (s : Surroundings) (m : Machine), (c.run s m).2.executed = m.executed ++ [c.line] ∧
        ∀ f, (c.run s m).1 = .error f → f.cause.commandLine? = some c.line) ∧
      ∀ c' : Command, c'.program.display = c.program.display → (∀ a ∈ c'.arguments, '"' ∉ a.toList) →
        c'.arguments ≠ c.arguments → c'.line ≠ c.line := by
  refine ⟨argumentsIn?_line h, fun s m => ⟨executed_run c s m, fun f hf => failure_run (Prod.ext hf rfl)⟩, ?_⟩
  intro c' hprogram h' hne hline
  have hsame : some c'.arguments = some c.arguments := by
    rw [← argumentsIn?_line h', ← argumentsIn?_line h, hprogram, hline]
  exact hne (Option.some.inj hsame)

/-- One argument with a blank is not two, and an empty one is not none. -/
theorem line_determines_arguments_echo :
    let c : Command := { program := .ofText "echo", arguments := ["a b", "", "c"] }
    let c' : Command := { program := .ofText "echo", arguments := ["a", "b", "", "c"] }
    (∀ a ∈ c.arguments, '"' ∉ a.toList) ∧ c.line = "echo \"a b\"  c" ∧
      argumentsIn? "echo" "echo \"a b\"  c" = some ["a b", "", "c"] ∧ c'.line ≠ c.line := by
  intro c c'
  have hmarks : ∀ a ∈ c.arguments, '"' ∉ a.toList := by decide
  have hline : c.line = "echo \"a b\"  c" := by decide
  have hdisplay : c.program.display = "echo" := by decide
  obtain ⟨hread, -, hother⟩ := line_determines_arguments c hmarks
  rw [hdisplay, hline] at hread
  exact ⟨hmarks, hline, hread, hother c' rfl (by decide) (by decide)⟩

end Command

end GradleBuild
