import YaraRules.Grammar.Condition
import YaraRules.Proofs.ReadConditionNames
import YaraRules.Proofs.ReadFrames

/-! What reading a condition leaves as it is: all tokens that it does not read and all that
concerns files. -/

namespace YaraRules.Grammar

variable {free : List Handle}

private theorem checkOperand_calm (operator : Handle) (operand : Expr) (expected : OperandClass) (side : Side) :
    Calm free (checkOperand operator operand expected side) fun _ => [] :=
  .ite (fun _ => .pure (by simp)) fun _ => .bind (textOf_calm operator) fun _ => .refuse (fail_refuses _ (by simp))

private theorem symbolOf_calm (e : Expr) : Calm free (symbolOf? e) fun _ => [] :=
  .bind tokens_calm fun _ => .pure (by simp)

private theorem binary_calm (op : BinaryOp) (left : Expr) (token : Handle) (right : Expr) :
    Calm free (binary op left token right) fun _ => [] :=
  .bind (checkOperand_calm _ _ _ _) fun _ => .bind (checkOperand_calm _ _ _ _) fun _ => .pure (by simp)

private theorem unary_calm (op : UnaryOp) (token : Handle) (operand : Expr) :
    Calm free (unary op token operand) fun _ => [] := by
  unfold unary
  split
  · exact .bind (checkOperand_calm _ _ _ _) fun _ => .pure (by simp)
  · exact .pure (by simp)

/-! ### Names and strings -/

private theorem name_calm {token : Handle} (known : token ∈ free) : Calm free (name token) fun _ => [] := by
  refine .bind (textOf_calm token) fun text => .bind (refine_calm _ (by simp [known]))
    fun _ => .bind get_calm fun s => ?_
  split
  · exact .bind (setLiteral_calm _ (by simp [known])) fun _ => .pure (by simp)
  · split
    · exact .ite (fun _ => .bind (setLiteral_calm _ (by simp [known])) fun _ => .pure (by simp))
        fun _ => .pure (by simp)
    · split
      · exact .bind (setLiteral_calm _ (by simp [known])) fun _ => .pure (by simp)
      · exact .refuse (fail_refuses _ (by simp))

private theorem stringReference_calm {token : Handle} (known : token ∈ free) :
    Calm free (stringReference token) fun _ => [] := by
  refine .bind (textOf_calm token) fun text => .bind get_calm fun s => ?_
  refine .ite (fun _ => .ite (fun _ => .refuse (fail_refuses _ (by simp))) fun _ => .pure (by simp)) fun _ => ?_
  split
  · exact setLiteral_calm _ (by simp [known])
  · exact .refuse (fail_refuses _ (by simp))

/-! ### Ranges, sets and parentheses -/

private theorem rangeOf_calm (opening : Handle) (low : Expr) (dots : Handle) (high : Expr) (closing : Handle) :
    Calm free (rangeOf opening low dots high closing) fun _ => [] := by
  refine .bind (checkOperand_calm _ _ _ _) fun _ => .bind (checkOperand_calm _ _ _ _) fun _ => .bind tokens_calm
    fun tokens => ?_
  dsimp only
  split
  · exact .guard (fail_refuses _ (by simp)) (.pure (by simp))
  · exact .pure (by simp)

private theorem setElement_calm : Calm free setElement fun _ => [] := by
  refine .bind peek_calm fun next => ?_
  split
  · exact .bind advance_calm fun token => .bind (stringReference_calm (by simp)) fun _ => .pure (by simp)
  · refine .bind advance_calm fun token => .bind (textOf_calm token) fun pattern => .bind get_calm fun s => ?_
    exact .guard (fail_refuses _ (by simp)) (.pure (by simp))
  · exact .bind advance_calm fun token => name_calm (by simp)
  · exact .refuse (unexpected_refuses _)

private theorem stringSet_calm : Calm free stringSet fun _ => [] := by
  refine .bind (accept_calm _) fun them => ?_
  cases them with
  | some token => exact .bind get_calm fun s => .guard (fail_refuses _ (by simp)) (.pure (by simp))
  | none =>
    refine .bind (expect_calm _) fun opening => .bind remaining_calm fun bound => ?_
    exact .bind (separated_calm setElement_calm bound) fun elements => .bind (expect_calm _)
      fun closing => .pure (by simp)

private theorem percentage_calm (operand : Expr) : Calm free (percentage operand) fun _ => [] :=
  .bind (expect_calm _) fun percent => .bind (refine_calm _ (by simp)) fun _ => .bind (checkOperand_calm _ _ _ _)
    fun _ => .pure (by simp)

private theorem declareVariables_calm : ∀ {free} (vars : List (Handle × Symbol)) scope, vars.map (·.1) ⊆ free →
    Calm free (declareVariables vars scope) fun _ => []
  | _, [], _, _ => .pure (by simp)
  | _, (token, symbol) :: rest, scope, known => by
    have here := known (List.mem_map_of_mem (List.mem_cons_self (a := (token, symbol)) (l := rest)))
    refine .bind (textOf_calm token) fun text => .bind get_calm fun s => .guard (fail_refuses _ (by simp)) ?_
    refine .bind (refine_calm _ (by simp [here])) fun _ => .bind (setLiteral_calm _ (by simp [here])) fun _ => ?_
    exact declareVariables_calm rest _ fun h member => by simpa using known (List.mem_cons_of_mem token member)

section

variable {self : Readers} (readers : ∀ {free} level, Calm free (self level) fun _ => [])
include readers

private theorem range_calm : Calm free (range self) fun _ => [] := by
  refine .bind (expect_calm _) fun opening => .bind (readers _) fun low => .bind (expect_calm _) fun dots => ?_
  exact .bind (readers _) fun high => .bind (expect_calm _) fun closing => rangeOf_calm opening low dots high closing

private theorem parenthesized_calm : Calm free (parenthesized self) fun _ => [] := by
  refine .bind (expect_calm _) fun opening => .bind tokens_calm fun tokens =>
    .bind (breakAfter_calm _ (by simp)) fun _ => ?_
  exact .bind (readers _) fun inner => .bind (expect_calm _) fun closing => .pure (by simp)

/-! ### Quantifiers and loops -/

private theorem quantifier_calm : Calm free (quantifier self) fun _ => [] := by
  refine .bind peek_calm fun next => ?_
  split
  · exact .bind advance_calm fun token => .pure (by simp)
  · exact .bind advance_calm fun token => .pure (by simp)
  · exact .bind advance_calm fun token => .pure (by simp)
  · refine .bind (readers _) fun e => .bind peek_calm fun next => .ite (fun _ => percentage_calm e) fun _ => ?_
    refine .bind (peekHandle_calm 0) fun next => ?_
    cases next with
    | some next => exact .bind (checkOperand_calm _ _ _ _) fun _ => .pure (by simp)
    | none => exact .pure (by simp)

private theorem ofRest_calm (quantifier : Expr) : Calm free (ofRest self quantifier) fun _ => [] := by
  refine .bind (expect_calm _) fun of_ => .bind stringSet_calm fun members => .bind peek_calm fun next => ?_
  split
  · refine .bind advance_calm fun keyword => .bind (readers _) fun anchor => ?_
    exact .bind (checkOperand_calm _ _ _ _) fun _ => .pure (by simp)
  · exact .bind advance_calm fun keyword => .bind (range_calm readers) fun anchor => .pure (by simp)
  · exact .pure (by simp)

private theorem iterable_calm : Calm free (iterable self) fun _ => [] := by
  refine .bind peek_calm fun next => .ite (fun _ => ?_) fun _ => ?_
  · refine .bind advance_calm fun opening => .bind (readers _) fun first => .bind (accept_calm _) fun dots => ?_
    cases dots with
    | some dots =>
      exact .bind (readers _) fun high => .bind (expect_calm _) fun closing =>
        rangeOf_calm opening first dots high closing
    | none =>
      have rest {free : List Handle} (others : List Expr) : Calm free (do
            let closing ← expect .closeParen
            let expected := if first.type == .string then OperandClass.string else .integer
            (first :: others).forM fun element => checkOperand opening element expected .right
            return Expr.set first.type opening (first :: others) closing) fun _ => [] :=
        .bind (expect_calm _) fun closing => .bind (.forM (fun element => checkOperand_calm _ _ _ _) _)
          fun _ => .pure (by simp)
      refine .bind (accept_calm _) fun comma => ?_
      cases comma with
      | none => exact rest []
      | some comma =>
        exact .bind remaining_calm fun bound => .bind (separated_calm (readers _) bound) fun others => rest others
  · refine .bind (readers _) fun e => .bind (symbolOf_calm e) fun symbol => .ite (fun _ => .pure (by simp)) fun _ => ?_
    exact .bind tokens_calm fun _ => .refuse (fail_refuses _ (by simp))

private theorem loopIn_calm (for_ : Handle) (quantifier : Expr) :
    Calm free (loopIn self for_ quantifier) fun _ => [] := by
  refine .bind remaining_calm fun bound => .bind (separated_calm (expect_calm _) bound) fun vars => ?_
  refine .bind (expect_calm _) fun in_ => .bind (iterable_calm readers) fun iterable => ?_
  refine .bind (.mapM textOf_calm vars) fun names => .bind (symbolOf_calm iterable) fun symbol => ?_
  obtain ⟨expected, symbols⟩ := loopVariables symbol iterable names
  refine .guard (fail_refuses _ (by simp)) ?_
  have known : (vars.zip symbols).map (·.1) ⊆ vars := (zip_sublist vars symbols).subset
  refine .bind (declareVariables_calm _ _ fun h member => by simp [known member]) fun scope => ?_
  refine .bind (expect_calm _) fun colon => ?_
  refine .enclosed (fun s t => { t with scopes := s.scopes }) (parenthesized_calm readers) (fun _ => ⟨rfl, rfl⟩)
    (fun _ _ => ⟨rfl, rfl⟩) fun s t nesting => ⟨.inl rfl, nesting.stringLoops⟩

private theorem loopOf_calm (for_ : Handle) (quantifier : Expr) :
    Calm free (loopOf self for_ quantifier) fun _ => [] := by
  refine .bind (expect_calm _) fun of_ => .bind stringSet_calm fun members => .bind (expect_calm _) fun colon => ?_
  refine .enclosed (fun _ t => { t with stringLoops := t.stringLoops - 1 }) (parenthesized_calm readers)
    (fun _ => ⟨rfl, rfl⟩)
    (fun _ _ => ⟨rfl, rfl⟩) fun s t nesting => ⟨nesting.scopes, nesting.stringLoops.imp (fun same => ?_) fun none => ?_⟩
  · simp [same]
  · simp [none]

private theorem loop_calm : Calm free (loop self) fun _ => [] := by
  refine .bind (expect_calm _) fun for_ => .bind (quantifier_calm readers) fun quantifier => .bind peek_calm fun _ => ?_
  exact .ite (fun _ => loopOf_calm readers for_ quantifier) fun _ => loopIn_calm readers for_ quantifier

/-! ### Single terms -/

private theorem stringTerm_calm : Calm free (stringTerm self) fun _ => [] := by
  refine .bind (expect_calm _) fun id => .bind (stringReference_calm (by simp)) fun _ => .bind peek_calm fun next => ?_
  split
  · exact .bind advance_calm fun at_ => .bind (readers _) fun offset => .bind (checkOperand_calm _ _ _ _)
      fun _ => .pure (by simp)
  · exact .bind advance_calm fun in_ => .bind (range_calm readers) fun bounds => .pure (by simp)
  · exact .pure (by simp)

private theorem countTerm_calm : Calm free (countTerm self) fun _ => [] := by
  refine .bind (expect_calm _) fun id => .bind (stringReference_calm (by simp))
    fun _ => .bind (accept_calm _) fun in_ => ?_
  cases in_ with
  | some in_ => exact .bind (range_calm readers) fun bounds => .pure (by simp)
  | none => exact .pure (by simp)

private theorem indexedTerm_calm (measured : Bool) : Calm free (indexedTerm self measured) fun _ => [] := by
  refine .bind (expect_calm _) fun id => .bind (stringReference_calm (by simp)) fun _ => .bind (accept_calm _)
    fun opening => ?_
  cases opening with
  | some opening =>
    exact .bind (readers _) fun index => .bind (checkOperand_calm _ _ _ _) fun _ => .bind (expect_calm _)
      fun closing => .pure (by simp)
  | none => exact .pure (by simp)

private theorem integerFunction_calm {function : Handle} (known : function ∈ free) :
    Calm free (integerFunction self function) fun _ => [] := by
  refine .bind (refine_calm _ known) fun _ => .bind (expect_calm _) fun opening => .bind (readers _) fun arg => ?_
  exact .bind (checkOperand_calm _ _ _ _) fun _ => .bind (expect_calm _) fun closing => .pure (by simp)

private theorem term_calm : Calm free (term self) fun _ => [] := by
  refine .bind peek_calm fun next => ?_
  split
  · exact .bind advance_calm fun token => .pure (by simp)
  · exact .bind advance_calm fun token => .pure (by simp)
  · exact .bind advance_calm fun token => .pure (by simp)
  · exact .bind advance_calm fun token => .pure (by simp)
  · exact .bind advance_calm fun token => .pure (by simp)
  · exact .bind advance_calm fun token => .bind (checkEscapes_calm token) fun _ => .pure (by simp)
  · exact .bind advance_calm fun token => .bind (readRegexp_calm token) fun _ => .pure (by simp)
  · exact stringTerm_calm readers
  · exact countTerm_calm readers
  · exact indexedTerm_calm readers false
  · exact indexedTerm_calm readers true
  · exact parenthesized_calm readers
  · refine .bind advance_calm fun token => .bind (textOf_calm token) fun text => .bind peek_calm fun next => ?_
    exact .ite (fun _ => integerFunction_calm readers (by simp)) fun _ => name_calm (by simp)
  · exact .refuse (unexpected_refuses _)

/-! ### Fields, elements and calls -/

omit readers in
private theorem fieldOf_calm (structure_ : Expr) : Calm free (fieldOf structure_) fun _ => [] := by
  refine .bind (expect_calm _) fun dot => .bind (expect_calm _) fun member => .bind (symbolOf_calm _) fun parent => ?_
  cases parent with
  | none => exact .bind tokens_calm fun _ => .refuse (fail_refuses _ (by simp))
  | some parent =>
    refine .ite (fun _ => .bind (textOf_calm member) fun text => ?_) fun _ => .bind tokens_calm
      fun _ => .refuse (fail_refuses _ (by simp))
    split
    · exact .bind (refine_calm _ (by simp)) fun _ => .bind (setLiteral_calm _ (by simp)) fun _ => .pure (by simp)
    · exact .refuse (fail_refuses _ (by simp))

private theorem elementOf_calm (array : Expr) : Calm free (elementOf self array) fun _ => [] := by
  refine .bind (expect_calm _) fun opening => .bind (symbolOf_calm array) fun symbol => ?_
  have rest {free : List Handle} (expected : OperandClass) (container : String) :
      Calm free (elementEnd self array opening symbol expected container) fun _ => [] := by
    unfold elementEnd
    refine .bind (readers _) fun index => .ite (fun _ => .bind tokens_calm fun tokens => ?_) fun _ => ?_
    · exact .refuse ((fail_refuses _ (by simp)).bind _)
    · exact .bind (expect_calm _) fun closing => .pure (by simp)
  refine .ite (fun _ => rest .integer "an array") fun _ => .ite (fun _ => rest .string "a dictionary") fun _ =>
    .bind tokens_calm fun tokens => ?_
  exact .refuse ((fail_refuses _ (by simp)).bind _)

theorem arguments_calm : Calm free (arguments self) fun _ => [] := by
  refine .bind peek_calm fun _ => .ite (fun _ => .pure (by simp)) fun _ => .bind remaining_calm fun bound => ?_
  exact (separated_calm (readers _) bound).forget

private theorem callOf_calm (function : Expr) : Calm free (callOf self function) fun _ => [] := by
  refine .bind (expect_calm _) fun opening => .bind (arguments_calm readers) fun args => ?_
  refine .bind (expect_calm _) fun closing => .bind (symbolOf_calm function) fun symbol => ?_
  dsimp only
  split
  · exact .pure (by simp)
  · exact .bind tokens_calm fun _ => .refuse (fail_refuses _ (by simp))

private theorem accesses_calm : ∀ {free} bound (e : Expr), Calm free (accesses self bound e) fun _ => []
  | _, 0, _ => .pure (by simp)
  | _, bound + 1, e => by
    refine .bind peek_calm fun next => ?_
    split
    · exact .bind (fieldOf_calm e) fun e => accesses_calm bound e
    · exact .bind (elementOf_calm readers e) fun e => accesses_calm bound e
    · refine .bind (symbolOf_calm e) fun symbol => .ite (fun _ => ?_) fun _ => .pure (by simp)
      exact .bind (callOf_calm readers e) fun e => accesses_calm bound e
    · exact .pure (by simp)

/-! ### Levels -/

omit readers in
private theorem operator_calm (level : Level) : Calm free (operator? level) fun _ => [] := by
  refine .bind peek_calm fun next => ?_
  split
  · exact .ite (fun _ => .pure (by simp)) fun _ => .bind (peekAt_calm 1) fun _ => .ite (fun _ => .pure (by simp))
      fun _ => .pure (by simp)
  · exact .pure (by simp)

private theorem operations_calm (level : Level) :
    ∀ {free} bound left, Calm free (operations self level bound left) fun _ => []
  | _, 0, _ => .pure (by simp)
  | _, bound + 1, left => by
    refine .bind (operator_calm level) fun op => ?_
    cases op with
    | none => exact .pure (by simp)
    | some op =>
      refine .bind advance_calm fun token => .bind (readers _) fun right => ?_
      exact .bind (binary_calm op left token right) fun e => operations_calm level bound e

private theorem negation_calm : Calm free (negation self) fun _ => [] := by
  refine .bind peek_calm fun next => ?_
  split
  · exact .bind advance_calm fun token => .bind (readers _) fun operand => unary_calm .not token operand
  · exact .bind advance_calm fun token => .bind (readers _) fun operand => unary_calm .defined token operand
  · exact readers _

private theorem quantified_calm : Calm free (quantified self) fun _ => [] := by
  refine .bind peek_calm fun next => .bind (peekAt_calm 1) fun second => ?_
  refine .ite (fun _ => loop_calm readers) fun _ => .ite (fun _ => ?_) fun _ => ?_
  · exact .bind (quantifier_calm readers) fun quantifier => ofRest_calm readers quantifier
  refine .bind (readers _) fun e => .bind peek_calm fun next => .bind (peekAt_calm 1) fun second => ?_
  refine .ite (fun _ => .bind (percentage_calm e) fun e => ofRest_calm readers e) fun _ => ?_
  refine .ite (fun _ => .bind (peekHandle_calm 0) fun next => ?_) fun _ => .pure (by simp)
  cases next with
  | some of_ => exact .bind (checkOperand_calm _ _ _ _) fun _ => ofRest_calm readers e
  | none => exact ofRest_calm readers e

private theorem signed_calm : Calm free (signed self) fun _ => [] := by
  refine .bind peek_calm fun next => ?_
  split
  · exact .bind advance_calm fun token => .bind (refine_calm _ (by simp)) fun _ => .bind (readers _) fun operand =>
      unary_calm .minus token operand
  · exact .bind advance_calm fun token => .bind (readers _) fun operand => unary_calm .bitNot token operand
  · exact readers _

private theorem levelRule_calm (level : Level) : Calm free (levelRule self level) fun _ => [] := by
  unfold levelRule
  split
  · exact negation_calm readers
  · exact quantified_calm readers
  · exact signed_calm readers
  · exact .bind (term_calm readers) fun e => .bind remaining_calm fun bound => accesses_calm readers bound e
  · exact .bind (readers _) fun left => .bind remaining_calm fun bound => operations_calm readers _ bound left

end

theorem exprWithin_calm : ∀ {free} depth level, Calm free (exprWithin depth level) fun _ => []
  | _, 0, _ => .refuse (unexpected_refuses _)
  | _, depth + 1, level => levelRule_calm (exprWithin_calm depth) level

theorem condition_calm : Calm free condition fun _ => [] := .bind remaining_calm fun _ => exprWithin_calm _ _

end YaraRules.Grammar
