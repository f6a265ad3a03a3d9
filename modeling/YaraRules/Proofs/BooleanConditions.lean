import YaraRules.Proofs.Outcomes
import YaraRules.Proofs.ReadFileScopes

/-! Which conditions are boolean. The operands of the logical operators are checked; conditions
and the bodies of loops are not, so they may be whatever has no value of its own: a
regular expression, or a name, a field or an element that stands for an object. -/

namespace YaraRules

/-! ### What gives an expression its type -/

namespace Expr

/-- An expression without the parentheses around it. A set stands for its first element. -/
def core (e : Expr) : Expr :=
  e.fold fun e below =>
    match e with
    | paren .. | set .. => below.headD e
    | _ => e

private theorem core_paren (type : ValueType) (opening : Handle) (inner : Expr) (closing : Handle) :
    (paren type opening inner closing).core = inner.core := by
  rw [core, fold_eq]
  rfl

private theorem core_set (type : ValueType) (opening : Handle) (first : Expr) (rest : List Expr) (closing : Handle) :
    (set type opening (first :: rest) closing).core = first.core := by
  rw [core, fold_eq]
  rfl

def isRegexp : Expr → Bool
  | regexp .. => true
  | _ => false

/-- The type comes from the declaration of a symbol. -/
def isReference : Expr → Bool
  | atom _ .name _ | field .. | index .. | call .. => true
  | _ => false

/-- Operands of a logical operator. -/
def logicalOperands : Expr → List Expr
  | unary _ .not _ operand => [operand]
  | binary _ .and left _ right | binary _ .or left _ right => [left, right]
  | _ => []

/-- A type that can be used as a boolean, or an expression that need not have one. -/
def BooleanUnless (e : Expr) : Prop := e.type.isBooleanCompatible ∨ e.core.isRegexp ∨ e.core.isReference

end Expr

private theorem ValueType.Among.compatible {types : List ValueType} {type : ValueType} (among : type.Among types)
    (known : ∀ type ∈ types, type.isBooleanCompatible) : type.isBooleanCompatible := by
  rcases among with rfl | listed
  · rfl
  · exact known type listed

namespace Outlook

variable {o : Outlook} {site : Site} {e : Expr}

theorem Fine.child (fine : o.Fine site e) {child : Site × Expr} (member : child ∈ e.placed site.loops) :
    o.Fine child.1 child.2 := by
  intro node inside
  refine fine node ?_
  rw [Expr.sited_eq]
  exact List.mem_cons_of_mem _ (List.mem_flatMap.mpr ⟨child, member, inside⟩)

theorem Fine.within (fine : o.Fine site e) {node : Site × Expr} (inside : node ∈ e.sited site) :
    o.Fine node.1 node.2 := by
  induction e using Expr.by_children generalizing site with
  | step e below =>
    rw [Expr.sited_eq] at inside
    rcases List.mem_cons.mp inside with rfl | deeper
    · exact fine
    · obtain ⟨child, placed, inside⟩ := List.mem_flatMap.mp deeper
      exact below child.2 (Expr.children_of_placed placed) (fine.child placed) inside

/-- Only regular expressions and references have types that cannot be used as booleans. -/
theorem Fine.boolean (fine : o.Fine site e) : e.BooleanUnless := by
  induction e using Expr.by_children generalizing site with
  | step e below =>
    have typed : e.type = o.typeAt site e := fine.root.typed
    have known (same : e.type.isBooleanCompatible) : e.BooleanUnless := .inl same
    obtain ⟨loops, choice⟩ := site
    cases choice with
    | true => exact known (by rw [typed]; rfl)
    | false =>
      have typed : e.type = o.typeOf (o.tables loops) e := typed
      -- Parentheses and sets have the type of what stands first inside.
      have inherited (child : Expr) (inside : child ∈ e.children) (placed : (⟨loops, false⟩, child) ∈ e.placed loops)
        (core : e.core = child.core)
          (same : o.typeOf (o.tables loops) e = o.typeOf (o.tables loops) child) : e.BooleanUnless := by
        have here := below child inside (fine.child placed)
        have type : e.type = child.type := typed.trans (same.trans (fine.child placed).type.symm)
        rwa [Expr.BooleanUnless, type, core]
      cases e with
      | atom type kind token =>
        cases kind with
        | name => exact .inr (.inr rfl)
        | _ => exact known (by rw [typed]; rfl)
      | regexp type token value => exact .inr (.inl rfl)
      | field => exact .inr (.inr rfl)
      | index => exact .inr (.inr rfl)
      | call => exact .inr (.inr rfl)
      | paren type opening inner closing =>
        exact inherited inner (by simp [Expr.children]) (by simp [Expr.placed, Expr.sitesBelow, Expr.children])
          (Expr.core_paren ..) rfl
      | set type opening elements closing =>
        cases elements with
        | nil => exact known (by rw [typed]; rfl)
        | cons first rest =>
          exact inherited first (by simp [Expr.children]) (by simp [Expr.placed, Expr.sitesBelow, Expr.children])
            (Expr.core_set ..) rfl
      | unary type op token operand =>
        cases op with
        | minus =>
          have placed : (⟨loops, false⟩, operand) ∈ (Expr.unary type .minus token operand).placed loops := by
            simp [Expr.placed, Expr.sitesBelow, Expr.children]
          have same : (Expr.unary type .minus token operand).type = operand.type :=
            typed.trans (fine.child placed).type.symm
          have number : operand.type.Among [.integer, .float] := fine.root.fitting
          exact known (same ▸ number.compatible (by decide))
        | _ => exact known (by rw [typed]; rfl)
      | binary type op left token right =>
        refine known ?_
        rw [typed, typeOf]
        split_ifs <;> rfl
      | stringIn type counted id in_ bounds =>
        refine known ?_
        rw [typed, typeOf]
        split_ifs <;> rfl
      | _ => exact known (by rw [typed]; rfl)

private theorem Fits.logical (fits : o.Fits site e) :
    ∀ operand ∈ e.logicalOperands, operand.type.isBooleanCompatible := by
  have fitting := fits.fitting
  have known : ∀ type ∈ [ValueType.boolean, .integer, .float, .string], type.isBooleanCompatible := by decide
  unfold Expr.logicalOperands
  split
  · exact List.forall_mem_singleton.mpr (ValueType.Among.compatible fitting known)
  · exact List.forall_mem_cons.mpr ⟨fitting.1.compatible known,
      List.forall_mem_singleton.mpr (fitting.2.compatible known)⟩
  · exact List.forall_mem_cons.mpr ⟨fitting.1.compatible known,
      List.forall_mem_singleton.mpr (fitting.2.compatible known)⟩
  · exact fun _ => nofun

end Outlook

namespace RuleFile

variable {file : RuleFile} {rule : Rule} {site : Site} {node : Expr}

/-- Every node of a condition, so also the condition itself and the body of each loop, has a type that can be used as a
boolean unless it is a regular expression or a reference. The operands of logical operators have such a type always. -/
theorem Read.conditions_boolean (read : file.Read) (listed : rule ∈ file.rules)
    (inside : (site, node) ∈ rule.condition.sited {}) : node.BooleanUnless ∧
    ∀ operand ∈ node.logicalOperands, operand.type.isBooleanCompatible :=
  ⟨((read.fine rule listed).within inside).boolean, (read.fine rule listed _ inside).logical⟩

/-- A rule with a loop whose body is a regular expression. -/
def looseContent : Bytes := Bytes.ofText "rule a\x7bcondition:for any i in (1..2):(/a/) and not true\x7d"

private theorem loose_nodes : yields (RuleFile.ofSource {} {} 0 looseContent) (fun file =>
    file.rules.any fun rule => rule.condition.logicalOperands.length == 2 && (rule.condition.sited {}).any fun node =>
      node.2.text file.tokens == "(/a/)" && node.2.type == .regexp && node.1.loops.length == 1) = true := by
  decide +kernel

theorem conditions_boolean_loop : ∃ file, RuleFile.ofSource {} {} 0 looseContent = .ok file ∧ ∃ rule ∈ file.rules,
    rule.condition.logicalOperands.length = 2 ∧
    (∀ operand ∈ rule.condition.logicalOperands, operand.type.isBooleanCompatible) ∧
    ∃ node ∈ rule.condition.sited {}, node.1.loops.length = 1 ∧ node.2.text file.tokens = "(/a/)" ∧
    node.2.type = .regexp ∧
      node.2.BooleanUnless := by
  obtain ⟨file, done, run⟩ := yields_iff.mp loose_nodes
  simp only [List.any_eq_true, Bool.and_eq_true, beq_iff_eq] at run
  obtain ⟨rule, listed, operands, node, inside, ⟨text, type⟩, loops⟩ := run
  have read : file.Read := .ofSource done
  exact ⟨file, done, rule, listed, operands, (Read.conditions_boolean read listed (rule.condition.mem_sited_self {})).2,
    node, inside, loops, text, type, (Read.conditions_boolean read listed inside).1⟩

end RuleFile

end YaraRules
