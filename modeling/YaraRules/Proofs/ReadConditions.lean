import YaraRules.Proofs.ReadRows

/-! What conditions read. The rule of each level of the grammar reads the tokens of its
expression in order if the readers that it is given do, so all levels do. -/

namespace YaraRules.Grammar

variable {scene : Scene}

private theorem checkOperand_reads (operator : Handle) (operand : Expr) (expected : OperandClass) (side : Side) :
    Reads scene [] (checkOperand operator operand expected side) fun _ => [] :=
  .ite (fun _ => .pure (.refl _)) fun _ => .bind (textOf_reads operator) fun _ => .never (never_fail _ _)

private theorem binary_reads (op : BinaryOp) (left : Expr) (token : Handle) (right : Expr) :
    Reads scene (left.handles ++ [token] ++ right.handles) (binary op left token right) Expr.handles := by
  refine .skip (checkOperand_reads token left _ _) fun _ => .skip (checkOperand_reads token right _ _) fun _ => ?_
  exact .pure (by simp [Expr.handles])

private theorem unary_reads (op : UnaryOp) (token : Handle) (operand : Expr) :
    Reads scene ([token] ++ operand.handles) (unary op token operand) Expr.handles := by
  unfold unary
  split
  · exact .skip (checkOperand_reads token operand _ _) fun _ => .pure (.refl _)
  · exact .pure (.refl _)

private theorem symbolOf_reads (e : Expr) : Reads scene [] (symbolOf? e) fun _ => [] :=
  .bind tokens_reads fun _ => .pure (.refl _)

/-! ### Names and strings -/

private theorem name_reads (token : Handle) : Reads scene [token] (name token) Expr.handles := by
  refine .skip (textOf_reads token) fun text => .skip (refine_reads (by decide) token) fun _ => ?_
  refine .skip get_reads fun s => ?_
  have resolved (literal : Literal) (type : ValueType) :
      Reads scene [token] (do setLiteral token literal; return .atom type .name token) Expr.handles :=
    .skip (setLiteral_reads token literal) fun _ => .pure (.refl _)
  split
  · exact resolved _ _
  · split
    · exact .ite (fun _ => resolved _ _) fun _ => .pure (.refl _)
    · split
      · exact resolved _ _
      · exact .never (never_fail _ _)

private theorem stringReference_reads (token : Handle) : Reads scene [] (stringReference token) fun _ => [] := by
  refine .bind (textOf_reads token) fun text => .bind get_reads fun s => ?_
  refine .ite (fun _ => .ite (fun _ => .never (never_fail _ _)) fun _ => .pure (.refl _)) fun _ => ?_
  split
  · exact setLiteral_reads token _
  · exact .never (never_fail _ _)

/-! ### Ranges, sets and parentheses -/

private theorem rangeOf_reads (opening : Handle) (low : Expr) (dots : Handle) (high : Expr) (closing : Handle) :
    Reads scene ([opening] ++ low.handles ++ [dots] ++ high.handles ++ [closing])
    (rangeOf opening low dots high closing)
      Expr.handles := by
  refine .skip (checkOperand_reads dots low _ _) fun _ => .skip (checkOperand_reads dots high _ _) fun _ => ?_
  refine .skip tokens_reads fun tokens => ?_
  have last : Reads scene ([opening] ++ low.handles ++ [dots] ++ high.handles ++ [closing])
      (pure (.range .integer opening low dots high closing)) Expr.handles := .pure (by simp [Expr.handles])
  dsimp only
  split
  · exact .guard (never_fail _ _) last
  · exact last

private theorem setElement_reads : Reads scene [] setElement Expr.handles := by
  refine .bind peek_reads fun next => ?_
  split
  · exact .bind advance_reads fun token => .skip (stringReference_reads token) fun _ => .pure (.refl _)
  · refine .bind advance_reads fun token => .skip (textOf_reads token) fun _ => .skip get_reads fun s => ?_
    exact .guard (never_fail _ _) (.pure (.refl _))
  · exact .bind advance_reads fun token => name_reads token
  · exact .never (never_unexpected _)

private theorem stringSet_reads : Reads scene [] stringSet Expr.handles := by
  refine .bind (accept_reads _) fun them => ?_
  cases them with
  | some token => exact .skip get_reads fun s => .guard (never_fail _ _) (.pure (.refl _))
  | none =>
    refine .bind (expect_reads _) fun opening => .skip remaining_reads fun bound => ?_
    refine .bind (separated_reads setElement_reads bound) fun elements => .bind (expect_reads _) fun closing => ?_
    exact .pure (by simp [Expr.handles, Expr.handlesAll_eq])

private theorem percentage_reads (operand : Expr) : Reads scene operand.handles (percentage operand) Expr.handles := by
  refine .bind (expect_reads _) fun percent => .skip (refine_reads (by decide) percent) fun _ => ?_
  exact .skip (checkOperand_reads percent operand _ _) fun _ => .pure (.refl _)

private theorem declareVariables_reads : ∀ vars scope, Reads scene [] (declareVariables vars scope) fun _ => []
  | [], _ => .pure (.refl _)
  | (token, symbol) :: rest, scope => by
    refine .bind (textOf_reads token) fun text => .bind get_reads fun s => .guard (never_fail _ _) ?_
    refine .bind (refine_reads (by decide) token) fun _ => .bind (setLiteral_reads token _) fun _ => ?_
    exact declareVariables_reads rest _

section

variable {self : Readers} (readers : ∀ level, Reads scene [] (self level) Expr.handles)
include readers

private theorem range_reads : Reads scene [] (range self) Expr.handles := by
  refine .bind (expect_reads _) fun opening => .bind (readers _) fun low => .bind (expect_reads _) fun dots => ?_
  exact .bind (readers _) fun high => .bind (expect_reads _) fun closing => rangeOf_reads opening low dots high closing

private theorem parenthesized_reads : Reads scene [] (parenthesized self) Expr.handles := by
  refine .bind (expect_reads _) fun opening => .skip tokens_reads fun tokens => ?_
  refine .skip (breakAfter_reads opening _) fun _ => .bind (readers _) fun inner => .bind (expect_reads _)
    fun closing => ?_
  exact .pure (by simp [Expr.handles])

/-! ### Quantifiers and loops -/

private theorem quantifier_reads : Reads scene [] (quantifier self) Expr.handles := by
  refine .bind peek_reads fun next => ?_
  split
  · exact .bind advance_reads fun token => .pure (.refl _)
  · exact .bind advance_reads fun token => .pure (.refl _)
  · exact .bind advance_reads fun token => .pure (.refl _)
  · refine .bind (readers _) fun e => .skip peek_reads fun next => .ite (fun _ => percentage_reads e) fun _ => ?_
    refine .skip (peekHandle_reads 0) fun next => ?_
    cases next with
    | some next => exact .skip (checkOperand_reads next e _ _) fun _ => .pure (.refl _)
    | none => exact .pure (.refl _)

private theorem ofRest_reads (quantifier : Expr) :
    Reads scene quantifier.handles (ofRest self quantifier) Expr.handles := by
  refine .bind (expect_reads _) fun of_ => .bind stringSet_reads fun members => .skip peek_reads fun next => ?_
  split
  · refine .bind advance_reads fun keyword => .bind (readers _) fun anchor => ?_
    exact .skip (checkOperand_reads keyword anchor _ _) fun _ => .pure (by simp [Expr.handles])
  · exact .bind advance_reads fun keyword => .bind (range_reads readers) fun anchor => .pure (by simp [Expr.handles])
  · exact .pure (by simp [Expr.handles])

private theorem iterable_reads : Reads scene [] (iterable self) Expr.handles := by
  refine .skip peek_reads fun next => .ite (fun _ => ?_) fun _ => ?_
  · refine .bind advance_reads fun opening => .bind (readers _) fun first => .bind (accept_reads _) fun dots => ?_
    cases dots with
    | some dots =>
      refine .bind (readers _) fun high => .bind (expect_reads _) fun closing => ?_
      exact rangeOf_reads opening first dots high closing
    | none =>
      have rest (before : List Handle) (others : List Expr) (fewer : (others.flatMap Expr.handles).Sublist before) :
          Reads scene ([opening] ++ first.handles ++ before) (do
            let closing ← expect .closeParen
            let expected := if first.type == .string then OperandClass.string else .integer
            (first :: others).forM fun element => checkOperand opening element expected .right
            return .set first.type opening (first :: others) closing) Expr.handles := by
        refine .bind (expect_reads _) fun closing => ?_
        refine .skip (.forM (fun element => checkOperand_reads opening element _ _) _) fun _ => .pure ?_
        simp [Expr.handles, Expr.handlesAll_eq, fewer]
      refine .bind (accept_reads _) fun comma => ?_
      cases comma with
      | none => simpa using rest [] [] (.refl _)
      | some comma =>
        refine .skip remaining_reads fun bound => .bind (separated_reads (readers _) bound) fun others => ?_
        simpa using rest ([comma] ++ others.flatMap Expr.handles) others (List.sublist_append_right _ _)
  · refine .bind (readers _) fun e => .skip (symbolOf_reads e) fun symbol => .ite (fun _ => .pure (.refl _)) fun _ => ?_
    exact .skip tokens_reads fun _ => .never (never_fail _ _)

private theorem loopIn_reads (for_ : Handle) (quantifier : Expr) :
    Reads scene ([for_] ++ quantifier.handles) (loopIn self for_ quantifier) Expr.handles := by
  refine .skip remaining_reads fun bound => .bind (separated_reads (expect_reads _) bound) fun vars => ?_
  refine .bind (expect_reads _) fun in_ => .bind (iterable_reads readers) fun iterable => ?_
  refine .skip (.mapM textOf_reads vars) fun names => .skip (symbolOf_reads iterable) fun symbol => ?_
  refine .guard (never_fail _ _) (.skip (declareVariables_reads _ _) fun scope => ?_)
  refine .bind (expect_reads _) fun colon => .skip get_reads fun s => ?_
  refine .skip (aside_reads fun _ => ⟨rfl, rfl, rfl, rfl, rfl⟩)
    fun _ => .bind (parenthesized_reads readers) fun body => ?_
  refine .skip (aside_reads fun _ => ⟨rfl, rfl, rfl, rfl, rfl⟩) fun _ => .pure ?_
  simp [Expr.handles]

private theorem loopOf_reads (for_ : Handle) (quantifier : Expr) :
    Reads scene ([for_] ++ quantifier.handles) (loopOf self for_ quantifier) Expr.handles := by
  refine .bind (expect_reads _) fun of_ => .bind stringSet_reads fun members => .bind (expect_reads _) fun colon => ?_
  refine .skip (aside_reads fun _ => ⟨rfl, rfl, rfl, rfl, rfl⟩)
    fun _ => .bind (parenthesized_reads readers) fun body => ?_
  exact .skip (aside_reads fun _ => ⟨rfl, rfl, rfl, rfl, rfl⟩) fun _ => .pure (by simp [Expr.handles])

private theorem loop_reads : Reads scene [] (loop self) Expr.handles := by
  refine .bind (expect_reads _) fun for_ => .bind (quantifier_reads readers) fun quantifier => ?_
  exact .skip peek_reads fun _ => .ite (fun _ => loopOf_reads readers for_ quantifier)
    fun _ => loopIn_reads readers for_ quantifier

/-! ### Single terms -/

private theorem stringTerm_reads : Reads scene [] (stringTerm self) Expr.handles := by
  refine .bind (expect_reads _) fun id => .skip (stringReference_reads id) fun _ => .skip peek_reads fun next => ?_
  split
  · refine .bind advance_reads fun at_ => .bind (readers _) fun offset => ?_
    exact .skip (checkOperand_reads at_ offset _ _) fun _ => .pure (.refl _)
  · exact .bind advance_reads fun in_ => .bind (range_reads readers) fun bounds => .pure (.refl _)
  · exact .pure (.refl _)

private theorem countTerm_reads : Reads scene [] (countTerm self) Expr.handles := by
  refine .bind (expect_reads _) fun id => .skip (stringReference_reads id) fun _ => .bind (accept_reads _) fun in_ => ?_
  cases in_ with
  | some in_ => exact .bind (range_reads readers) fun bounds => .pure (.refl _)
  | none => exact .pure (.refl _)

private theorem indexedTerm_reads (measured : Bool) : Reads scene [] (indexedTerm self measured) Expr.handles := by
  refine .bind (expect_reads _) fun id => .skip (stringReference_reads id) fun _ => .bind (accept_reads _)
    fun opening => ?_
  cases opening with
  | some opening =>
    refine .bind (readers _) fun index => .skip (checkOperand_reads opening index _ _) fun _ => ?_
    exact .bind (expect_reads _) fun closing => .pure (by simp [Expr.handles])
  | none => exact .pure (.refl _)

private theorem integerFunction_reads (function : Handle) :
    Reads scene [function] (integerFunction self function) Expr.handles := by
  refine .skip (refine_reads (by decide) function) fun _ => .bind (expect_reads _) fun opening => ?_
  refine .bind (readers _) fun arg => .skip (checkOperand_reads opening arg _ _) fun _ => ?_
  exact .bind (expect_reads _) fun closing => .pure (by simp [Expr.handles])

private theorem term_reads : Reads scene [] (term self) Expr.handles := by
  refine .bind peek_reads fun next => ?_
  split
  · exact .bind advance_reads fun token => .pure (.refl _)
  · exact .bind advance_reads fun token => .pure (.refl _)
  · exact .bind advance_reads fun token => .pure (.refl _)
  · exact .bind advance_reads fun token => .pure (.refl _)
  · exact .bind advance_reads fun token => .pure (.refl _)
  · exact .bind advance_reads fun token => .skip (checkEscapes_reads token) fun _ => .pure (.refl _)
  · exact .bind advance_reads fun token => .skip (readRegexp_reads token) fun _ => .pure (.refl _)
  · exact stringTerm_reads readers
  · exact countTerm_reads readers
  · exact indexedTerm_reads readers false
  · exact indexedTerm_reads readers true
  · exact parenthesized_reads readers
  · refine .bind advance_reads fun token => .skip (textOf_reads token) fun text => .skip peek_reads fun _ => ?_
    exact .ite (fun _ => integerFunction_reads readers token) fun _ => name_reads token
  · exact .never (never_unexpected _)

/-! ### Fields, elements and calls -/

omit readers in
private theorem fieldOf_reads (structure_ : Expr) :
    Reads scene structure_.handles (fieldOf structure_) Expr.handles := by
  refine .bind (expect_reads _) fun dot => .bind (expect_reads _) fun member => .skip (symbolOf_reads _)
    fun parent => ?_
  cases parent with
  | none => exact .skip tokens_reads fun _ => .never (never_fail _ _)
  | some parent =>
    refine .ite (fun _ => ?_) fun _ => .skip tokens_reads fun _ => .never (never_fail _ _)
    refine .skip (textOf_reads member) fun text => ?_
    split
    · refine .skip (refine_reads (by decide) member) fun _ => .skip (setLiteral_reads member _) fun _ => ?_
      exact .pure (by simp [Expr.handles])
    · exact .never (never_fail _ _)

private theorem elementOf_reads (array : Expr) : Reads scene array.handles (elementOf self array) Expr.handles := by
  refine .bind (expect_reads _) fun opening => .skip (symbolOf_reads array) fun symbol => ?_
  have rest (expected : OperandClass) (container : String) : Reads scene (array.handles ++ [opening])
      (elementEnd self array opening symbol expected container) Expr.handles := by
    unfold elementEnd
    refine .bind (readers _) fun index => .ite (fun _ => ?_) fun _ => ?_
    · exact .skip tokens_reads fun tokens => .never (.bind (never_fail _ _) _)
    · exact .bind (expect_reads _) fun closing => .pure (by simp [Expr.handles])
  refine .ite (fun _ => rest .integer "an array") fun _ => .ite (fun _ => rest .string "a dictionary") fun _ => ?_
  exact .skip tokens_reads fun _ => .never (.bind (never_fail _ _) _)

private theorem arguments_reads : Reads scene [] (arguments self) fun args => args.flatMap Expr.handles := by
  refine .skip peek_reads fun _ => .ite (fun _ => .pure (.refl _)) fun _ => ?_
  exact .skip remaining_reads fun bound => separated_reads (readers _) bound

private theorem callOf_reads (function : Expr) : Reads scene function.handles (callOf self function) Expr.handles := by
  refine .bind (expect_reads _) fun opening => .bind (arguments_reads readers) fun args => ?_
  refine .bind (expect_reads _) fun closing => .skip (symbolOf_reads function) fun symbol => ?_
  dsimp only
  split
  · exact .pure (by simp [Expr.handles, Expr.handlesAll_eq])
  · exact .skip tokens_reads fun _ => .never (never_fail _ _)

private theorem accesses_reads : ∀ bound e, Reads scene e.handles (accesses self bound e) Expr.handles
  | 0, _ => .pure (.refl _)
  | bound + 1, e => by
    refine .skip peek_reads fun next => ?_
    split
    · exact .seq (fieldOf_reads e) fun e => accesses_reads bound e
    · exact .seq (elementOf_reads readers e) fun e => accesses_reads bound e
    · refine .skip (symbolOf_reads e) fun symbol => .ite (fun _ => ?_) fun _ => .pure (.refl _)
      exact .seq (callOf_reads readers e) fun e => accesses_reads bound e
    · exact .pure (.refl _)

/-! ### Levels -/

omit readers in
private theorem operator_reads (level : Level) : Reads scene [] (operator? level) fun _ => [] := by
  refine .bind peek_reads fun next => ?_
  split
  · refine .ite (fun _ => .pure (.refl _)) fun _ => ?_
    exact .bind (peekAt_reads 1) fun _ => .ite (fun _ => .pure (.refl _)) fun _ => .pure (.refl _)
  · exact .pure (.refl _)

private theorem operations_reads (level : Level) :
    ∀ bound left, Reads scene left.handles (operations self level bound left) Expr.handles
  | 0, _ => .pure (.refl _)
  | bound + 1, left => by
    refine .skip (operator_reads level) fun op => ?_
    cases op with
    | none => exact .pure (.refl _)
    | some op =>
      refine .bind advance_reads fun token => .bind (readers _) fun right => ?_
      exact .seq (binary_reads op left token right) fun e => operations_reads level bound e

private theorem negation_reads : Reads scene [] (negation self) Expr.handles := by
  refine .bind peek_reads fun next => ?_
  split
  · exact .bind advance_reads fun token => .bind (readers _) fun operand => unary_reads .not token operand
  · exact .bind advance_reads fun token => .bind (readers _) fun operand => unary_reads .defined token operand
  · exact readers _

private theorem quantified_reads : Reads scene [] (quantified self) Expr.handles := by
  refine .skip peek_reads fun next => .skip (peekAt_reads 1) fun second => ?_
  refine .ite (fun _ => loop_reads readers) fun _ => .ite (fun _ => ?_) fun _ => ?_
  · exact .bind (quantifier_reads readers) fun quantifier => ofRest_reads readers quantifier
  refine .bind (readers _) fun e => .skip peek_reads fun next => .skip (peekAt_reads 1) fun second => ?_
  refine .ite (fun _ => .seq (percentage_reads e) fun e => ofRest_reads readers e) fun _ => ?_
  refine .ite (fun _ => .skip (peekHandle_reads 0) fun next => ?_) fun _ => .pure (.refl _)
  cases next with
  | some of_ => exact .skip (checkOperand_reads of_ e _ _) fun _ => ofRest_reads readers e
  | none => exact ofRest_reads readers e

private theorem signed_reads : Reads scene [] (signed self) Expr.handles := by
  refine .bind peek_reads fun next => ?_
  split
  · refine .bind advance_reads fun token => .skip (refine_reads (by decide) token) fun _ => ?_
    exact .bind (readers _) fun operand => unary_reads .minus token operand
  · exact .bind advance_reads fun token => .bind (readers _) fun operand => unary_reads .bitNot token operand
  · exact readers _

private theorem levelRule_reads (level : Level) : Reads scene [] (levelRule self level) Expr.handles := by
  unfold levelRule
  split
  · exact negation_reads readers
  · exact quantified_reads readers
  · exact signed_reads readers
  · exact .bind (term_reads readers) fun e => .skip remaining_reads fun bound => accesses_reads readers bound e
  · exact .bind (readers _) fun left => .skip remaining_reads fun bound => operations_reads readers _ bound left

end

private theorem exprWithin_reads : ∀ depth level, Reads scene [] (exprWithin depth level) Expr.handles
  | 0, _ => .never (never_unexpected _)
  | depth + 1, level => levelRule_reads (exprWithin_reads depth) level

theorem condition_reads : Reads scene [] condition Expr.handles :=
  .skip remaining_reads fun _ => exprWithin_reads _ _

end YaraRules.Grammar
