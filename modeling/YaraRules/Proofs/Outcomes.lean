import YaraRules.Edit.File

/-! Runs on given files. A check of such a run asks whether every step succeeds and looks at what
it comes to. From a run that passes, its steps are taken apart again, one after the other. -/

namespace YaraRules

/-- The step succeeds, and its result passes the check. -/
def yields {ε α : Type} (step : Except ε α) (check : α → Bool) : Bool :=
  match step with
  | .ok a => check a
  | .error _ => false

theorem yields_iff {ε α : Type} {step : Except ε α} {check : α → Bool} :
    yields step check = true ↔ ∃ a, step = .ok a ∧ check a = true := by
  cases step with
  | ok a => simp [yields]
  | error e => simp [yields]

variable {α : Type} {check : RuleFile → Bool}

/-- The edit succeeds, and the file that it leaves passes the check. -/
def leaves (outcome : Except EditError α × RuleFile) (check : RuleFile → Bool) : Bool :=
  yields outcome.1 fun _ => check outcome.2

theorem leaves_iff {outcome : Except EditError α × RuleFile} :
    leaves outcome check = true ↔ ∃ a file, outcome = (.ok a, file) ∧ check file = true := by
  obtain ⟨result, file⟩ := outcome
  simp only [leaves, yields_iff, Prod.mk.injEq]
  constructor
  · rintro ⟨a, rfl, passed⟩
    exact ⟨a, file, ⟨rfl, rfl⟩, passed⟩
  · rintro ⟨a, _, ⟨rfl, rfl⟩, passed⟩
    exact ⟨a, rfl, passed⟩

/-- The rule is there, and the edit of it leaves such a file. -/
def leavesRule (outcome? : Option (Except EditError α × RuleFile)) (check : RuleFile → Bool) : Bool :=
  outcome?.any fun outcome => leaves outcome check

theorem leavesRule_iff {outcome? : Option (Except EditError α × RuleFile)} :
    leavesRule outcome? check = true ↔ ∃ a file, outcome? = some (.ok a, file) ∧ check file = true := by
  cases outcome? with
  | none => simp [leavesRule]
  | some outcome => simp only [leavesRule, Option.any_some, leaves_iff, Option.some.injEq]

end YaraRules
