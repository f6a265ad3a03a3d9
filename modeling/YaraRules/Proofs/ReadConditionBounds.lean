import YaraRules.Grammar.Condition
import YaraRules.Proofs.ReadBounds

/-! Bounds of ranges in a condition. A range is compared when it is made, and what is made of
it keeps its bounds. -/

namespace YaraRules.Grammar

variable {held : List (Handle × Handle)}

/-- A node that has no bounds of its own is made of some that were read. -/
theorem Orders.node {e : Expr} (own : e.ownBounds = []) (known : ∀ child ∈ e.children, child.bounds ⊆ held) :
    Orders held (Pure.pure e) Expr.bounds := by
  refine .pure ?_
  rw [Expr.bounds_eq, own, List.nil_append]
  intro pair member
  obtain ⟨child, below, inside⟩ := List.mem_flatMap.mp member
  exact known child below inside

theorem Orders.leaf {e : Expr} (own : e.ownBounds = []) (bare : e.children = []) :
    Orders held (Pure.pure e) Expr.bounds :=
  .node own (by simp [bare])

/-- Bounds in one of several expressions are bounds in all of them. -/
theorem among {es : List Expr} (known : es.flatMap Expr.bounds ⊆ held) {e : Expr} (member : e ∈ es) : e.bounds ⊆ held :=
  fun _ inside => known (List.mem_flatMap.mpr ⟨e, member, inside⟩)

private theorem checkOperand_orders (operator : Handle) (operand : Expr) (expected : OperandClass) (side : Side) :
    Orders held (checkOperand operator operand expected side) fun _ => [] :=
  .ite (fun _ => .pure (by simp)) fun _ => .skip (fun _ => rfl) fun _ => .never (never_fail _ _)

private theorem binary_orders (op : BinaryOp) {left right : Expr} (token : Handle) (known : left.bounds ⊆ held)
    (known' : right.bounds ⊆ held) : Orders held (binary op left token right) Expr.bounds :=
  .bind (checkOperand_orders _ _ _ _) fun _ => .bind (checkOperand_orders _ _ _ _)
    fun _ => .node rfl (by simp [Expr.children, known, known'])

private theorem unary_orders (op : UnaryOp) (token : Handle) {operand : Expr} (known : operand.bounds ⊆ held) :
    Orders held (unary op token operand) Expr.bounds := by
  unfold unary
  split
  · exact .bind (checkOperand_orders _ _ _ _) fun _ => .node rfl (by simp [Expr.children, known])
  · exact .node rfl (by simp [Expr.children, known])

/-! ### Names and strings -/

private theorem name_orders (token : Handle) : Orders held (name token) Expr.bounds := by
  refine .skip (fun _ => rfl) fun text => .bind (refine_orders _ _) fun _ => .skip (fun _ => rfl) fun s => ?_
  split
  · exact .bind (setLiteral_orders _ rfl) fun _ => .leaf rfl rfl
  · split
    · exact .ite (fun _ => .bind (setLiteral_orders _ rfl) fun _ => .leaf rfl rfl) fun _ => .leaf rfl rfl
    · split
      · exact .bind (setLiteral_orders _ rfl) fun _ => .leaf rfl rfl
      · exact .never (never_fail _ _)

private theorem stringReference_orders (token : Handle) : Orders held (stringReference token) fun _ => [] := by
  refine .skip (fun _ => rfl) fun text => .skip (fun _ => rfl) fun s => ?_
  refine .ite (fun _ => .ite (fun _ => .never (never_fail _ _)) fun _ => .pure (by simp)) fun _ => ?_
  split
  · exact setLiteral_orders _ rfl
  · exact .never (never_fail _ _)

/-! ### Ranges, sets and parentheses -/

private theorem rangeOf_orders (opening : Handle) {low : Expr} (dots : Handle) {high : Expr} (closing : Handle)
    (known : low.bounds ⊆ held) (known' : high.bounds ⊆ held) :
    Orders held (rangeOf opening low dots high closing) Expr.bounds := by
  refine .bind (checkOperand_orders _ _ _ _) fun _ => .bind (checkOperand_orders _ _ _ _)
    fun _ => Ensures.look (fun _ => rfl) fun tokens => ?_
  have order (compared : ∀ l h, integerIn? tokens low = some l → integerIn? tokens high = some h → ¬ h < l) :
      ∀ pair ∈ (Expr.range .integer opening low dots high closing).ownBounds, tokens.InOrder pair := by
    intro pair member
    unfold Expr.ownBounds at member
    split at member
    next same =>
      cases same
      obtain rfl := List.mem_singleton.mp member
      exact TokenStream.inOrder_of_compared compared
    next => cases member
  -- What stands inside the bounds is in order already.
  refine (compared_ensures order).weaken fun e s ⟨same, ordered⟩ => ordered.fewer ?_
  rw [same, Expr.bounds_eq]
  simp [Expr.children, known, known']

private theorem setElement_orders : Orders held setElement Expr.bounds := by
  refine .skip (fun _ => rfl) fun next => ?_
  split
  · exact .bind advance_orders fun token => .bind (stringReference_orders token) fun _ => .leaf rfl rfl
  · refine .bind advance_orders fun token => .skip (fun _ => rfl) fun pattern => .skip (fun _ => rfl) fun s => ?_
    exact .guard (never_fail _ _) (.leaf rfl rfl)
  · exact .bind advance_orders fun token => name_orders token
  · exact .never (never_unexpected _)

private theorem stringSet_orders : Orders held stringSet Expr.bounds := by
  refine .bind (accept_orders _) fun them => ?_
  cases them with
  | some token => exact .skip (fun _ => rfl) fun s => .guard (never_fail _ _) (.leaf rfl rfl)
  | none =>
    refine .bind (expect_orders _) fun opening => .skip (fun _ => rfl) fun bound => ?_
    refine .bind (separated_orders setElement_orders bound) fun elements => .bind (expect_orders _) fun closing => ?_
    exact .node rfl fun child member =>
      among (List.subset_append_of_subset_right _ (List.subset_append_left _ _)) member

private theorem percentage_orders {operand : Expr} (known : operand.bounds ⊆ held) :
    Orders held (percentage operand) Expr.bounds :=
  .bind (expect_orders _) fun percent => .bind (refine_orders _ _) fun _ => .bind (checkOperand_orders _ _ _ _) fun _ =>
    .node rfl (by simp [Expr.children, known])

private theorem declareVariables_orders : ∀ {held}
    (vars : List (Handle × Symbol)) scope, Orders held (declareVariables vars scope) fun _ => []
  | _, [], _ => .pure (by simp)
  | _, (token, symbol) :: rest, scope => by
    refine .skip (fun _ => rfl) fun text => .skip (fun _ => rfl) fun s => .guard (never_fail _ _) ?_
    exact .bind (refine_orders _ _) fun _ => .bind (setLiteral_orders _ rfl) fun _ => declareVariables_orders rest _

section

variable {self : Readers} (readers : ∀ {held} level, Orders held (self level) Expr.bounds)
include readers

private theorem range_orders : Orders held (range self) Expr.bounds := by
  refine .bind (expect_orders _) fun opening => .bind (readers _) fun low => .bind (expect_orders _) fun dots => ?_
  exact .bind (readers _) fun high => .bind (expect_orders _) fun closing =>
    rangeOf_orders opening dots closing (by simp) (by simp)

private theorem parenthesized_orders : Orders held (parenthesized self) Expr.bounds := by
  refine .bind (expect_orders _) fun opening => .skip (fun _ => rfl) fun tokens =>
    .bind (breakAfter_orders _ _) fun _ => ?_
  exact .bind (readers _) fun inner => .bind (expect_orders _) fun closing => .node rfl (by simp [Expr.children])

/-! ### Quantifiers and loops -/

private theorem quantifier_orders : Orders held (quantifier self) Expr.bounds := by
  refine .skip (fun _ => rfl) fun next => ?_
  split
  · exact .bind advance_orders fun token => .leaf rfl rfl
  · exact .bind advance_orders fun token => .leaf rfl rfl
  · exact .bind advance_orders fun token => .leaf rfl rfl
  · refine .bind (readers _) fun e => .skip (fun _ => rfl) fun next =>
      .ite (fun _ => percentage_orders (by simp)) fun _ => ?_
    refine .skip (fun _ => rfl) fun next => ?_
    cases next with
    | some next => exact .bind (checkOperand_orders _ _ _ _) fun _ => .pure (by simp)
    | none => exact .pure (by simp)

private theorem ofRest_orders {quantifier : Expr} (known : quantifier.bounds ⊆ held) :
    Orders held (ofRest self quantifier) Expr.bounds := by
  refine .bind (expect_orders _) fun of_ => .bind stringSet_orders fun members => .skip (fun _ => rfl) fun next => ?_
  split
  · refine .bind advance_orders fun keyword => .bind (readers _) fun anchor => ?_
    exact .bind (checkOperand_orders _ _ _ _) fun _ => .node rfl (by simp [Expr.children, known])
  · exact .bind advance_orders fun keyword => .bind (range_orders readers) fun anchor =>
      .node rfl (by simp [Expr.children, known])
  · exact .node rfl (by simp [Expr.children, known])

private theorem iterable_orders : Orders held (iterable self) Expr.bounds := by
  refine .skip (fun _ => rfl) fun next => .ite (fun _ => ?_) fun _ => ?_
  · refine .bind advance_orders fun opening => .bind (readers _) fun first => .bind (accept_orders _) fun dots => ?_
    cases dots with
    | some dots =>
      exact .bind (readers _) fun high => .bind (expect_orders _) fun closing =>
        rangeOf_orders opening dots closing (by simp) (by simp)
    | none =>
      have rest {held : List (Handle × Handle)} (others : List Expr) (known : ∀ e ∈ first :: others, e.bounds ⊆ held) :
        Orders held (do
            let closing ← expect .closeParen
            let expected := if first.type == .string then OperandClass.string else .integer
            (first :: others).forM fun element => checkOperand opening element expected .right
            return Expr.set first.type opening (first :: others) closing) Expr.bounds :=
        .bind (expect_orders _) fun closing => .bind (.forM (fun element => checkOperand_orders _ _ _ _) _) fun _ =>
          .node rfl known
      refine .bind (accept_orders _) fun comma => ?_
      cases comma with
      | none => exact rest [] (by simp)
      | some comma =>
        refine .skip (fun _ => rfl) fun bound => .bind (separated_orders (readers _) bound) fun others => rest others
          fun e member => ?_
        rcases List.mem_cons.mp member with rfl | later
        · simp
        · exact among (List.subset_append_left _ _) later
  · refine .bind (readers _) fun e => .skip (fun _ => rfl) fun symbol => .ite (fun _ => .pure (by simp)) fun _ => ?_
    exact .skip (fun _ => rfl) fun _ => .never (never_fail _ _)

private theorem loopIn_orders (for_ : Handle) {quantifier : Expr} (known : quantifier.bounds ⊆ held) :
    Orders held (loopIn self for_ quantifier) Expr.bounds := by
  refine .skip (fun _ => rfl) fun bound => .bind (separated_orders (expect_orders _) bound).forget fun vars => ?_
  refine .bind (expect_orders _) fun in_ => .bind (iterable_orders readers) fun iterable => ?_
  refine .bind (.mapM (fun h => .skip (fun _ => rfl) fun _ => .pure (by simp)) vars) fun names => .skip (fun _ => rfl)
    fun symbol => ?_
  obtain ⟨expected, symbols⟩ := loopVariables symbol iterable names
  refine .guard (never_fail _ _) (.bind (declareVariables_orders _ _) fun scope =>
    .bind (expect_orders _) fun colon => ?_)
  refine .skip (fun _ => rfl) fun outer => .bind (.aside fun _ => ⟨rfl, rfl⟩)
    fun _ => .bind (parenthesized_orders readers) fun body => ?_
  exact .bind (.aside fun _ => ⟨rfl, rfl⟩) fun _ => .node rfl (by simp [Expr.children, known])

private theorem loopOf_orders (for_ : Handle) {quantifier : Expr} (known : quantifier.bounds ⊆ held) :
    Orders held (loopOf self for_ quantifier) Expr.bounds := by
  refine .bind (expect_orders _) fun of_ => .bind stringSet_orders fun members =>
    .bind (expect_orders _) fun colon => ?_
  refine .bind (.aside fun _ => ⟨rfl, rfl⟩) fun _ => .bind (parenthesized_orders readers) fun body => ?_
  exact .bind (.aside fun _ => ⟨rfl, rfl⟩) fun _ => .node rfl (by simp [Expr.children, known])

private theorem loop_orders : Orders held (loop self) Expr.bounds := by
  refine .bind (expect_orders _) fun for_ => .bind (quantifier_orders readers) fun quantifier =>
    .skip (fun _ => rfl) fun _ => ?_
  exact .ite (fun _ => loopOf_orders readers for_ (by simp)) fun _ => loopIn_orders readers for_ (by simp)

/-! ### Single terms -/

private theorem stringTerm_orders : Orders held (stringTerm self) Expr.bounds := by
  refine .bind (expect_orders _) fun id => .bind (stringReference_orders id)
    fun _ => .skip (fun _ => rfl) fun next => ?_
  split
  · refine .bind advance_orders fun at_ => .bind (readers _) fun offset =>
      .bind (checkOperand_orders _ _ _ _) fun _ => ?_
    exact .node rfl (by simp [Expr.children])
  · exact .bind advance_orders fun in_ => .bind (range_orders readers) fun bounds => .node rfl (by simp [Expr.children])
  · exact .leaf rfl rfl

private theorem countTerm_orders : Orders held (countTerm self) Expr.bounds := by
  refine .bind (expect_orders _) fun id => .bind (stringReference_orders id)
    fun _ => .bind (accept_orders _) fun in_ => ?_
  cases in_ with
  | some in_ => exact .bind (range_orders readers) fun bounds => .node rfl (by simp [Expr.children])
  | none => exact .leaf rfl rfl

private theorem indexedTerm_orders (measured : Bool) : Orders held (indexedTerm self measured) Expr.bounds := by
  refine .bind (expect_orders _) fun id => .bind (stringReference_orders id) fun _ => .bind (accept_orders _)
    fun opening => ?_
  cases opening with
  | some opening =>
    refine .bind (readers _) fun index => .bind (checkOperand_orders _ _ _ _) fun _ => .bind (expect_orders _)
      fun closing => ?_
    exact .node rfl (by simp [Expr.children])
  | none => exact .leaf rfl rfl

private theorem integerFunction_orders (function : Handle) :
    Orders held (integerFunction self function) Expr.bounds := by
  refine .bind (refine_orders _ _) fun _ => .bind (expect_orders _) fun opening => .bind (readers _) fun arg => ?_
  exact .bind (checkOperand_orders _ _ _ _) fun _ => .bind (expect_orders _) fun closing =>
    .node rfl (by simp [Expr.children])

private theorem term_orders : Orders held (term self) Expr.bounds := by
  refine .skip (fun _ => rfl) fun next => ?_
  split
  · exact .bind advance_orders fun token => .leaf rfl rfl
  · exact .bind advance_orders fun token => .leaf rfl rfl
  · exact .bind advance_orders fun token => .leaf rfl rfl
  · exact .bind advance_orders fun token => .leaf rfl rfl
  · exact .bind advance_orders fun token => .leaf rfl rfl
  · exact .bind advance_orders fun token => .bind (checkEscapes_orders token) fun _ => .leaf rfl rfl
  · exact .bind advance_orders fun token => .bind (readRegexp_orders token) fun _ => .leaf rfl rfl
  · exact stringTerm_orders readers
  · exact countTerm_orders readers
  · exact indexedTerm_orders readers false
  · exact indexedTerm_orders readers true
  · exact parenthesized_orders readers
  · refine .bind advance_orders fun token => .skip (fun _ => rfl) fun text => .skip (fun _ => rfl) fun next => ?_
    exact .ite (fun _ => integerFunction_orders readers token) fun _ => name_orders token
  · exact .never (never_unexpected _)

/-! ### Fields, elements and calls -/

omit readers in
private theorem fieldOf_orders {structure_ : Expr} (known : structure_.bounds ⊆ held) :
    Orders held (fieldOf structure_) Expr.bounds := by
  refine .bind (expect_orders _) fun dot => .bind (expect_orders _) fun member => .skip (fun _ => rfl) fun parent => ?_
  cases parent with
  | none => exact .skip (fun _ => rfl) fun _ => .never (never_fail _ _)
  | some parent =>
    refine .ite (fun _ => .skip (fun _ => rfl) fun text => ?_) fun _ => .skip (fun _ => rfl)
      fun _ => .never (never_fail _ _)
    split
    · refine .bind (refine_orders _ _) fun _ => .bind (setLiteral_orders _ rfl) fun _ => .node rfl ?_
      simp [Expr.children, known]
    · exact .never (never_fail _ _)

private theorem elementOf_orders {array : Expr} (known : array.bounds ⊆ held) :
    Orders held (elementOf self array) Expr.bounds := by
  refine .bind (expect_orders _) fun opening => .skip (fun _ => rfl) fun symbol => ?_
  have rest {held : List (Handle × Handle)} (known : array.bounds ⊆ held) (expected : OperandClass)
    (container : String) : Orders held (elementEnd self array opening symbol expected container) Expr.bounds := by
    unfold elementEnd
    refine .bind (readers _) fun index => .ite (fun _ => .skip (fun _ => rfl) fun tokens => ?_) fun _ => ?_
    · exact .never ((never_fail _ _).bind _)
    · exact .bind (expect_orders _) fun closing => .node rfl (by simp [Expr.children, known])
  refine .ite (fun _ => rest (by simp [known]) .integer "an array") fun _ =>
    .ite (fun _ => rest (by simp [known]) .string "a dictionary") fun _ => ?_
  exact .skip (fun _ => rfl) fun tokens => .never ((never_fail _ _).bind _)

private theorem arguments_orders : Orders held (arguments self) fun args => args.flatMap Expr.bounds :=
  .skip (fun _ => rfl) fun _ => .ite (fun _ => .pure (by simp)) fun _ => .skip (fun _ => rfl) fun bound =>
    separated_orders (readers _) bound

private theorem callOf_orders {function : Expr} (known : function.bounds ⊆ held) :
    Orders held (callOf self function) Expr.bounds := by
  refine .bind (expect_orders _) fun opening => .bind (arguments_orders readers) fun args => ?_
  refine .bind (expect_orders _) fun closing => .skip (fun _ => rfl) fun symbol => ?_
  dsimp only
  split
  · refine .node rfl fun child member => ?_
    rcases List.mem_cons.mp member with rfl | later
    · simp [known]
    · exact among (List.subset_append_of_subset_right _ (List.subset_append_left _ _)) later
  · exact .skip (fun _ => rfl) fun _ => .never (never_fail _ _)

private theorem accesses_orders : ∀ {held} bound {e : Expr}, e.bounds ⊆ held →
    Orders held (accesses self bound e) Expr.bounds
  | _, 0, _, known => .pure known
  | _, bound + 1, e, known => by
    refine .skip (fun _ => rfl) fun next => ?_
    split
    · exact .bind (fieldOf_orders known) fun e => accesses_orders bound (by simp)
    · exact .bind (elementOf_orders readers known) fun e => accesses_orders bound (by simp)
    · refine .skip (fun _ => rfl) fun symbol => .ite (fun _ => ?_) fun _ => .pure known
      exact .bind (callOf_orders readers known) fun e => accesses_orders bound (by simp)
    · exact .pure known

/-! ### Levels -/

omit readers in
private theorem operator_orders (level : Level) : Orders held (operator? level) fun _ => [] := by
  refine .skip (fun _ => rfl) fun next => ?_
  split
  · refine .ite (fun _ => .pure (by simp)) fun _ => .skip (fun _ => rfl) fun _ => ?_
    exact .ite (fun _ => .pure (by simp)) fun _ => .pure (by simp)
  · exact .pure (by simp)

private theorem operations_orders (level : Level) : ∀ {held} bound {left : Expr}, left.bounds ⊆ held →
    Orders held (operations self level bound left) Expr.bounds
  | _, 0, _, known => .pure known
  | _, bound + 1, left, known => by
    refine .bind (operator_orders level) fun op => ?_
    cases op with
    | none => exact .pure known
    | some op =>
      refine .bind advance_orders fun token => .bind (readers _) fun right => ?_
      exact .bind (binary_orders op token (by simp [known]) (by simp)) fun e => operations_orders level bound (by simp)

private theorem negation_orders : Orders held (negation self) Expr.bounds := by
  refine .skip (fun _ => rfl) fun next => ?_
  split
  · exact .bind advance_orders fun token => .bind (readers _) fun operand => unary_orders .not token (by simp)
  · exact .bind advance_orders fun token => .bind (readers _) fun operand => unary_orders .defined token (by simp)
  · exact readers _

private theorem quantified_orders : Orders held (quantified self) Expr.bounds := by
  refine .skip (fun _ => rfl) fun next => .skip (fun _ => rfl) fun second => ?_
  refine .ite (fun _ => loop_orders readers) fun _ => .ite (fun _ => ?_) fun _ => ?_
  · exact .bind (quantifier_orders readers) fun quantifier => ofRest_orders readers (by simp)
  refine .bind (readers _) fun e => .skip (fun _ => rfl) fun next => .skip (fun _ => rfl) fun second => ?_
  refine .ite (fun _ => .bind (percentage_orders (by simp)) fun e => ofRest_orders readers (by simp)) fun _ => ?_
  refine .ite (fun _ => .skip (fun _ => rfl) fun next => ?_) fun _ => .pure (by simp)
  cases next with
  | some of_ => exact .bind (checkOperand_orders _ _ _ _) fun _ => ofRest_orders readers (by simp)
  | none => exact ofRest_orders readers (by simp)

private theorem signed_orders : Orders held (signed self) Expr.bounds := by
  refine .skip (fun _ => rfl) fun next => ?_
  split
  · refine .bind advance_orders fun token => .bind (refine_orders _ _) fun _ => .bind (readers _) fun operand => ?_
    exact unary_orders .minus token (by simp)
  · exact .bind advance_orders fun token => .bind (readers _) fun operand => unary_orders .bitNot token (by simp)
  · exact readers _

private theorem levelRule_orders (level : Level) : Orders held (levelRule self level) Expr.bounds := by
  unfold levelRule
  split
  · exact negation_orders readers
  · exact quantified_orders readers
  · exact signed_orders readers
  · exact .bind (term_orders readers) fun e => .skip (fun _ => rfl) fun bound => accesses_orders readers bound (by simp)
  · exact .bind (readers _) fun left => .skip (fun _ => rfl) fun bound => operations_orders readers _ bound (by simp)

end

private theorem exprWithin_orders : ∀ {held} depth level, Orders held (exprWithin depth level) Expr.bounds
  | _, 0, _ => .never (never_unexpected _)
  | _, depth + 1, level => levelRule_orders (exprWithin_orders depth) level

theorem condition_orders : Orders held condition Expr.bounds := .skip (fun _ => rfl) fun _ => exprWithin_orders _ _

end YaraRules.Grammar
