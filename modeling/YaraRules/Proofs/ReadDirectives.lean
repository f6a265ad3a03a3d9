import YaraRules.Proofs.ReadRuleFrames

/-! Directives while a condition is read. No step reads the keyword of a directive or makes
one, so those that wait in front of a condition still wait behind it. Tokens stay in their
order. -/

namespace YaraRules.Grammar

/-- Kinds of the keywords that begin directives. -/
def isDirective : TokenKind → Bool
  | .kwImport | .kwInclude => true
  | _ => false

/-- The keyword of a directive is still to be read. -/
def State.Awaits (s : State) (h : Handle) : Prop :=
  h ∈ s.source.rest ∧ ∃ a, s.source.tokens.get? h = some a ∧ isDirective a.kind = true

/-- From a state, tokens were read among which there were no directives. Some tokens are free to be changed. -/
structure Intact (start : State) (free : List Handle) (s : State) : Prop where
  taken : ∃ taken, start.source.rest = taken ++ s.source.rest
  apart : s.source.rest.Nodup
  spent : ∀ h ∈ free, h ∈ start.source.rest ∧ h ∉ s.source.rest
  same : ∀ h, h ∈ s.source.rest ∨ h ∉ start.source.rest → s.source.tokens.get? h = start.source.tokens.get? h
  awaits : ∀ h, start.Awaits h → h ∈ s.source.rest
  old : ∀ h b, s.source.tokens.get? h = some b → isDirective b.kind = true →
    ∃ a, start.source.tokens.get? h = some a ∧ isDirective a.kind = true
  order : (s.source.tokens.entries.map (·.1)).Sublist (start.source.tokens.entries.map (·.1))

theorem Intact.refl {s : State} (apart : s.source.rest.Nodup) : Intact s [] s where
  taken := ⟨[], rfl⟩
  apart := apart
  spent := nofun
  same _ _ := rfl
  awaits _ awaited := awaited.1
  old _ b stored directs := ⟨b, stored, directs⟩
  order := .refl _

theorem Intact.fewer {start s : State} {free few : List Handle} (intact : Intact start free s) (fewer : few ⊆ free) :
    Intact start few s :=
  { intact with spent := fun h member => intact.spent h (fewer member) }

/-- What does not concern the source does not matter. -/
theorem Intact.aside {start s s' : State} {free : List Handle} (intact : Intact start free s)
    (source : s'.source = s.source) : Intact start free s' := by
  obtain ⟨taken, apart, spent, same, awaits, old, order⟩ := intact
  rw [← source] at taken apart spent same awaits old order
  exact ⟨taken, apart, spent, same, awaits, old, order⟩

/-- A step reads no directive. -/
def Shuns {α : Type} (free : List Handle) (step : Parse α) (given : α → List Handle) : Prop :=
  ∀ start, Ensures (Intact start free) step fun a => Intact start (given a ++ free)

/-- A step reads no directive if the next token is of a kind. -/
def ShunsAt {α : Type} (next : Option TokenKind) (free : List Handle) (step : Parse α)
    (given : α → List Handle) : Prop :=
  ∀ start, Ensures (fun s => (s.source.rest[0]?.bind s.source.tokens.get?).map (·.kind) = next ∧
    Intact start free s) step
    fun a => Intact start (given a ++ free)

section

variable {α β : Type} {free : List Handle} {step : Parse α} {next : α → Parse β} {row given : α → List Handle}
    {last : β → List Handle}

namespace Shuns

theorem pure {a : α} (known : given a ⊆ free) : Shuns free (pure a : Parse α) given :=
  fun _ => .pure fun _ intact => intact.fewer (List.append_subset.mpr ⟨known, List.Subset.refl _⟩)

theorem never (never : Never step) : Shuns free step given := fun _ => .never never

theorem bind (first : Shuns free step row) (rest : ∀ a, Shuns (row a ++ free) (next a) last) :
    Shuns free (step >>= next) last :=
  fun start => .bind (first start) fun a => .weaken (rest a start) fun _ _ intact => intact.fewer (by
    intro h member
    rcases List.mem_append.mp member with new | old
    · exact List.mem_append_left _ new
    · exact List.mem_append_right _ (List.mem_append_right _ old))

/-- A step that only looks at the state comes first. -/
theorem skip {seen : State → α} (same : ∀ s, step s = .ok (seen s, s)) (rest : ∀ a, Shuns free (next a) last) :
    Shuns free (step >>= next) last :=
  fun start => .skip same fun a => rest a start

theorem peek {next : Option TokenKind → Parse β} (rest : ∀ kind, ShunsAt kind free (next kind) last) :
    Shuns free (peek? >>= next) last :=
  fun start => .look (fun _ => rfl) fun kind => rest kind start

theorem ite {c : Prop} [Decidable c] {other : Parse α} (yes : c → Shuns free step given)
    (no : ¬ c → Shuns free other given) : Shuns free (if c then step else other) given :=
  fun start => .ite (fun holds => yes holds start) fun fails => no fails start

theorem guard {c : Prop} [Decidable c] {rest : Parse β} (never : Never step) (shuns : Shuns free rest last) :
    Shuns free (if c then step >>= next else rest) last :=
  fun start => .guard never (shuns start)

theorem forget (shuns : Shuns free step given) : Shuns free step fun _ => [] :=
  fun start => .weaken (shuns start) fun _ _ intact => intact.fewer (List.subset_append_right _ _)

theorem forM {check : α → Parse PUnit} (each : ∀ a, Shuns free (check a) fun _ => []) (items : List α) :
    Shuns free (items.forM check) fun _ => [] := by
  induction items with
  | nil => exact .pure (by simp)
  | cons item rest ih => exact .bind (each item) fun _ => ih

theorem mapM {look : α → Parse β} (each : ∀ a, Shuns free (look a) fun _ => []) (items : List α) :
    Shuns free (items.mapM look) fun _ => [] := by
  induction items with
  | nil => exact .pure (by simp)
  | cons item rest ih =>
    rw [List.mapM_cons]
    exact .bind (each item) fun _ => .bind ih fun _ => .pure (by simp)

theorem still {seen : State → α} (same : ∀ s, step s = .ok (seen s, s)) : Shuns free step fun _ => [] := by
  intro start s a s' done intact
  cases (same s).symm.trans done
  exact intact

theorem aside {f : State → State} (same : ∀ s, (f s).source = s.source) : Shuns free (modify f) fun _ => [] :=
  fun _ => .modify fun s intact => intact.aside (same s)

end Shuns

namespace ShunsAt

variable {kind : Option TokenKind}

theorem any (shuns : Shuns free step given) : ShunsAt kind free step given :=
  fun start => .consider _ (fun _ known => known.2) (shuns start)

theorem ite {c : Prop} [Decidable c] {other : Parse α} (yes : c → ShunsAt kind free step given)
    (no : ¬ c → ShunsAt kind free other given) : ShunsAt kind free (if c then step else other) given :=
  fun start => .ite (fun holds => yes holds start) fun fails => no fails start

theorem bind (first : ShunsAt kind free step row) (rest : ∀ a, Shuns (row a ++ free) (next a) last) :
    ShunsAt kind free (step >>= next) last :=
  fun start => .bind (first start) fun a => .weaken (rest a start) fun _ _ intact => intact.fewer (by
    intro h member
    rcases List.mem_append.mp member with new | old
    · exact List.mem_append_left _ new
    · exact List.mem_append_right _ (List.mem_append_right _ old))

end ShunsAt

end

variable {α β : Type} {free : List Handle} {kind : TokenKind}

/-! ### Elementary steps -/

theorem advance_shuns (plain : isDirective kind = false) : ShunsAt (some kind) free advance fun h => [h] := by
  rintro start s h s' done ⟨next, intact⟩
  obtain ⟨rest, read, rfl⟩ := advance_done done
  obtain ⟨a, stored, same⟩ : ∃ a, s.source.tokens.get? h = some a ∧ a.kind = kind := by simpa [read] using next
  obtain ⟨taken, whole⟩ := intact.taken
  have ⟨fresh, apart⟩ := List.nodup_cons.mp (read ▸ intact.apart)
  have later {k : Handle} (member : k ∈ rest) : k ∈ s.source.rest := read ▸ List.mem_cons_of_mem h member
  exact {
    taken := ⟨taken ++ [h], by simp [whole, read]⟩
    apart
    spent := fun k member => by
      rcases List.mem_cons.mp member with rfl | old
      · exact ⟨by simp [whole, read], fresh⟩
      · exact ⟨(intact.spent k old).1, fun inside => (intact.spent k old).2 (later inside)⟩
    same := fun k member => intact.same k (member.imp_left later)
    awaits := fun k awaited => by
      have waits : k ∈ h :: rest := read ▸ intact.awaits k awaited
      refine (List.mem_cons.mp waits).resolve_left ?_
      rintro rfl
      obtain ⟨_, b, found, directs⟩ := awaited
      obtain rfl := Option.some.inj (stored.symm.trans ((intact.same k (.inl (by simp [read]))).trans found))
      rw [same, plain] at directs
      cases directs
    old := intact.old
    order := intact.order }

theorem expect_shuns (plain : isDirective kind = false) : Shuns free (expect kind) fun h => [h] :=
  .peek fun next => .ite (fun same => by
    obtain rfl : next = some kind := by simpa using same
    exact advance_shuns plain) fun _ => .any (.never (never_unexpected _))

theorem accept_shuns (plain : isDirective kind = false) : Shuns free (accept? kind) Option.toList :=
  .peek fun next => .ite (fun same => by
    obtain rfl : next = some kind := by simpa using same
    exact .bind (advance_shuns plain) fun _ => .pure (by simp)) fun _ => .any (.pure (by simp))

private theorem modify_shuns {h : Handle} {f : Token → Token} (plain : ∀ a, isDirective (f a).kind = true →
    isDirective a.kind = true) (known : h ∈ free) : Shuns free (modifyTokens (·.modify h f)) fun _ => [] := by
  refine fun start => .modify fun s intact => ?_
  have others (k : Handle) (apart : k ∈ s.source.rest ∨ k ∉ start.source.rest) :
      (s.source.tokens.modify h f).get? k = s.source.tokens.get? k := by
    rw [TokenStream.get?_modify, if_neg]
    rintro rfl
    obtain ⟨read, spent⟩ := intact.spent k known
    exact apart.elim spent fun outside => outside read
  exact { intact with
    same := fun k member => (others k member).trans (intact.same k member)
    old := fun k b stored directs => by
      change (s.source.tokens.modify h f).get? k = some b at stored
      rw [TokenStream.get?_modify] at stored
      split_ifs at stored with same
      · obtain ⟨a, found, rfl⟩ := Option.map_eq_some_iff.mp stored
        exact intact.old k a (same ▸ found) (plain a directs)
      · exact intact.old k b stored directs
    order := by
      change ((s.source.tokens.modify h f).entries.map (·.1)).Sublist _
      rw [TokenStream.handles_modify]
      exact intact.order }

theorem refine_shuns {h : Handle} (plain : isDirective kind = false) (known : h ∈ free) :
    Shuns free (refine h kind) fun _ => [] :=
  modify_shuns (fun _ directs => by cases plain.symm.trans directs) known

theorem setLiteral_shuns {h : Handle} (literal : Literal) (known : h ∈ free) :
    Shuns free (setLiteral h literal) fun _ => [] :=
  modify_shuns (fun _ => id) known

theorem breakAfter_shuns {h : Handle} (wanted : Bool) (known : h ∈ free) :
    Shuns free (breakAfter h wanted) fun _ => [] :=
  modify_shuns (fun _ => id) known

theorem itemsWhile_shuns {starts : TokenKind → Bool} {item : Parse α} {row : α → List Handle}
    (each : ∀ {free}, Shuns free item row) : ∀ {free} bound, Shuns free (itemsWhile starts item bound) fun items =>
    items.flatMap row
  | _, 0 => .pure (by simp)
  | _, bound + 1 => .skip (fun _ => rfl) fun _ => .ite
    (fun _ => .bind each fun _ => .bind (itemsWhile_shuns each bound) fun _ => .pure (by simp)) fun _ => .pure (by simp)

theorem separated_shuns {separator : TokenKind} {item : Parse α} {row : α → List Handle}
    (plain : isDirective separator = false)
    (each : ∀ {free}, Shuns free item row) :
    ∀ {free} bound, Shuns free (separated separator item bound) fun items => items.flatMap row
  | _, 0 => .bind each fun _ => .pure (by simp)
  | _, bound + 1 => .bind each fun _ => .bind (accept_shuns plain) fun next => by
    cases next with
    | none => exact .pure (by simp)
    | some _ =>
      refine .bind (separated_shuns plain each bound) fun _ => .pure fun h member => ?_
      rcases List.mem_append.mp (List.flatMap_cons ▸ member) with first | later
      · simp [first]
      · exact List.mem_append_left _ later

theorem checkEscapes_shuns (h : Handle) : Shuns free (checkEscapes h) fun _ => [] := by
  refine .skip (fun _ => rfl) fun tokens => ?_
  split
  · split
    · exact .pure (by simp)
    · exact .skip (fun _ => rfl) fun _ => .never (never_fail _ _)
  · exact .pure (by simp)

theorem readRegexp_shuns (h : Handle) : Shuns free (readRegexp h) fun _ => [] := by
  refine .skip (fun _ => rfl) fun text => ?_
  split
  · exact .pure (by simp)
  · exact .never (never_fail _ _)

private theorem checkOperand_shuns (operator : Handle) (operand : Expr) (expected : OperandClass) (side : Side) :
    Shuns free (checkOperand operator operand expected side) fun _ => [] :=
  .ite (fun _ => .pure (by simp)) fun _ => .skip (fun _ => rfl) fun _ => .never (never_fail _ _)

private theorem binary_shuns (op : BinaryOp) (left : Expr) (token : Handle) (right : Expr) :
    Shuns free (binary op left token right) fun _ => [] :=
  .bind (checkOperand_shuns _ _ _ _) fun _ => .bind (checkOperand_shuns _ _ _ _) fun _ => .pure (by simp)

private theorem unary_shuns (op : UnaryOp) (token : Handle) (operand : Expr) :
    Shuns free (unary op token operand) fun _ => [] := by
  unfold unary
  split
  · exact .bind (checkOperand_shuns _ _ _ _) fun _ => .pure (by simp)
  · exact .pure (by simp)

/-! ### Names and strings -/

private theorem name_shuns {token : Handle} (known : token ∈ free) : Shuns free (name token) fun _ => [] := by
  refine .skip (fun _ => rfl) fun text => .bind (refine_shuns rfl (by simp [known]))
    fun _ => .skip (fun _ => rfl) fun s => ?_
  split
  · exact .bind (setLiteral_shuns _ (by simp [known])) fun _ => .pure (by simp)
  · split
    · exact .ite (fun _ => .bind (setLiteral_shuns _ (by simp [known])) fun _ => .pure (by simp))
        fun _ => .pure (by simp)
    · split
      · exact .bind (setLiteral_shuns _ (by simp [known])) fun _ => .pure (by simp)
      · exact .never (never_fail _ _)

private theorem stringReference_shuns {token : Handle} (known : token ∈ free) :
    Shuns free (stringReference token) fun _ => [] := by
  refine .skip (fun _ => rfl) fun text => .skip (fun _ => rfl) fun s => ?_
  refine .ite (fun _ => .ite (fun _ => .never (never_fail _ _)) fun _ => .pure (by simp)) fun _ => ?_
  split
  · exact setLiteral_shuns _ (by simp [known])
  · exact .never (never_fail _ _)

/-! ### Ranges, sets and parentheses -/

private theorem rangeOf_shuns (opening : Handle) (low : Expr) (dots : Handle) (high : Expr) (closing : Handle) :
    Shuns free (rangeOf opening low dots high closing) fun _ => [] := by
  refine .bind (checkOperand_shuns _ _ _ _) fun _ => .bind (checkOperand_shuns _ _ _ _) fun _ => .skip (fun _ => rfl)
    fun tokens => ?_
  dsimp only
  split
  · exact .guard (never_fail _ _) (.pure (by simp))
  · exact .pure (by simp)

private theorem setElement_shuns : Shuns free setElement fun _ => [] := by
  refine .peek fun next => ?_
  split
  · exact .bind (advance_shuns rfl) fun token => .bind (stringReference_shuns (by simp)) fun _ => .pure (by simp)
  · refine .bind (advance_shuns rfl) fun token => .skip (fun _ => rfl) fun pattern => .skip (fun _ => rfl) fun s => ?_
    exact .guard (never_fail _ _) (.pure (by simp))
  · exact .bind (advance_shuns rfl) fun token => name_shuns (by simp)
  · exact .any (.never (never_unexpected _))

private theorem stringSet_shuns : Shuns free stringSet fun _ => [] := by
  refine .bind (accept_shuns rfl) fun them => ?_
  cases them with
  | some token => exact .skip (fun _ => rfl) fun s => .guard (never_fail _ _) (.pure (by simp))
  | none =>
    refine .bind (expect_shuns rfl) fun opening => .skip (fun _ => rfl) fun bound => ?_
    exact .bind (separated_shuns rfl setElement_shuns bound) fun elements => .bind (expect_shuns rfl)
      fun closing => .pure (by simp)

private theorem percentage_shuns (operand : Expr) : Shuns free (percentage operand) fun _ => [] :=
  .bind (expect_shuns rfl) fun percent => .bind (refine_shuns rfl (by simp)) fun _ => .bind (checkOperand_shuns _ _ _ _)
    fun _ => .pure (by simp)

private theorem declareVariables_shuns : ∀ {free} (vars : List (Handle × Symbol)) scope, vars.map (·.1) ⊆ free →
    Shuns free (declareVariables vars scope) fun _ => []
  | _, [], _, _ => .pure (by simp)
  | _, (token, symbol) :: rest, scope, known => by
    have here := known (List.mem_map_of_mem (List.mem_cons_self (a := (token, symbol)) (l := rest)))
    refine .skip (fun _ => rfl) fun text => .skip (fun _ => rfl) fun s => .guard (never_fail _ _) ?_
    refine .bind (refine_shuns rfl (by simp [here])) fun _ => .bind (setLiteral_shuns _ (by simp [here])) fun _ => ?_
    exact declareVariables_shuns rest _ fun h member => by simpa using known (List.mem_cons_of_mem token member)

section

variable {self : Readers} (readers : ∀ {free} level, Shuns free (self level) fun _ => [])
include readers

private theorem range_shuns : Shuns free (range self) fun _ => [] := by
  refine .bind (expect_shuns rfl) fun opening => .bind (readers _) fun low => .bind (expect_shuns rfl) fun dots => ?_
  exact .bind (readers _) fun high => .bind (expect_shuns rfl) fun closing =>
    rangeOf_shuns opening low dots high closing

private theorem parenthesized_shuns : Shuns free (parenthesized self) fun _ => [] := by
  refine .bind (expect_shuns rfl) fun opening => .skip (fun _ => rfl) fun tokens =>
    .bind (breakAfter_shuns _ (by simp)) fun _ => ?_
  exact .bind (readers _) fun inner => .bind (expect_shuns rfl) fun closing => .pure (by simp)

/-! ### Quantifiers and loops -/

private theorem quantifier_shuns : Shuns free (quantifier self) fun _ => [] := by
  refine .peek fun next => ?_
  split
  · exact .bind (advance_shuns rfl) fun token => .pure (by simp)
  · exact .bind (advance_shuns rfl) fun token => .pure (by simp)
  · exact .bind (advance_shuns rfl) fun token => .pure (by simp)
  · refine .any (.bind (readers _) fun e => .skip (fun _ => rfl) fun next =>
      .ite (fun _ => percentage_shuns e) fun _ => ?_)
    refine .skip (fun _ => rfl) fun next => ?_
    cases next with
    | some next => exact .bind (checkOperand_shuns _ _ _ _) fun _ => .pure (by simp)
    | none => exact .pure (by simp)

private theorem ofRest_shuns (quantifier : Expr) : Shuns free (ofRest self quantifier) fun _ => [] := by
  refine .bind (expect_shuns rfl) fun of_ => .bind stringSet_shuns fun members => .peek fun next => ?_
  split
  · refine .bind (advance_shuns rfl) fun keyword => .bind (readers _) fun anchor => ?_
    exact .bind (checkOperand_shuns _ _ _ _) fun _ => .pure (by simp)
  · exact .bind (advance_shuns rfl) fun keyword => .bind (range_shuns readers) fun anchor => .pure (by simp)
  · exact .any (.pure (by simp))

private theorem iterable_shuns : Shuns free (iterable self) fun _ => [] := by
  refine .peek fun next => .ite (fun same => ?_) fun _ => .any ?_
  · obtain rfl : next = some .openParen := by simpa using same
    refine .bind (advance_shuns rfl) fun opening => .bind (readers _) fun first =>
      .bind (accept_shuns rfl) fun dots => ?_
    cases dots with
    | some dots =>
      exact .bind (readers _) fun high => .bind (expect_shuns rfl) fun closing =>
        rangeOf_shuns opening first dots high closing
    | none =>
      have rest {free : List Handle} (others : List Expr) : Shuns free (do
            let closing ← expect .closeParen
            let expected := if first.type == .string then OperandClass.string else .integer
            (first :: others).forM fun element => checkOperand opening element expected .right
            return Expr.set first.type opening (first :: others) closing) fun _ => [] :=
        .bind (expect_shuns rfl) fun closing => .bind (.forM (fun element => checkOperand_shuns _ _ _ _) _)
          fun _ => .pure (by simp)
      refine .bind (accept_shuns rfl) fun comma => ?_
      cases comma with
      | none => exact rest []
      | some comma =>
        exact .skip (fun _ => rfl) fun bound => .bind (separated_shuns rfl (readers _) bound) fun others => rest others
  · refine .bind (readers _) fun e => .skip (fun _ => rfl) fun symbol => .ite (fun _ => .pure (by simp)) fun _ => ?_
    exact .skip (fun _ => rfl) fun _ => .never (never_fail _ _)

private theorem loopIn_shuns (for_ : Handle) (quantifier : Expr) :
    Shuns free (loopIn self for_ quantifier) fun _ => [] := by
  refine .skip (fun _ => rfl) fun bound => .bind (separated_shuns rfl (expect_shuns rfl) bound) fun vars => ?_
  refine .bind (expect_shuns rfl) fun in_ => .bind (iterable_shuns readers) fun iterable => ?_
  refine .bind (.mapM (fun h => .still fun _ => rfl) vars) fun names => .skip (fun _ => rfl) fun symbol => ?_
  obtain ⟨expected, symbols⟩ := loopVariables symbol iterable names
  refine .guard (never_fail _ _) ?_
  have known : (vars.zip symbols).map (·.1) ⊆ vars := (zip_sublist vars symbols).subset
  refine .bind (declareVariables_shuns _ _ fun h member => by simp [known member]) fun scope => ?_
  refine .bind (expect_shuns rfl) fun colon => .skip (fun _ => rfl) fun s => .bind (.aside fun _ => rfl) fun _ => ?_
  exact .bind (parenthesized_shuns readers) fun body => .bind (.aside fun _ => rfl) fun _ => .pure (by simp)

private theorem loopOf_shuns (for_ : Handle) (quantifier : Expr) :
    Shuns free (loopOf self for_ quantifier) fun _ => [] := by
  refine .bind (expect_shuns rfl) fun of_ => .bind stringSet_shuns fun members =>
    .bind (expect_shuns rfl) fun colon => ?_
  refine .bind (.aside fun _ => rfl) fun _ => .bind (parenthesized_shuns readers) fun body => ?_
  exact .bind (.aside fun _ => rfl) fun _ => .pure (by simp)

private theorem loop_shuns : Shuns free (loop self) fun _ => [] := by
  refine .bind (expect_shuns rfl) fun for_ => .bind (quantifier_shuns readers) fun quantifier =>
    .skip (fun _ => rfl) fun _ => ?_
  exact .ite (fun _ => loopOf_shuns readers for_ quantifier) fun _ => loopIn_shuns readers for_ quantifier

/-! ### Single terms -/

private theorem stringTerm_shuns : Shuns free (stringTerm self) fun _ => [] := by
  refine .bind (expect_shuns rfl) fun id => .bind (stringReference_shuns (by simp)) fun _ => .peek fun next => ?_
  split
  · exact .bind (advance_shuns rfl) fun at_ => .bind (readers _) fun offset => .bind (checkOperand_shuns _ _ _ _)
      fun _ => .pure (by simp)
  · exact .bind (advance_shuns rfl) fun in_ => .bind (range_shuns readers) fun bounds => .pure (by simp)
  · exact .any (.pure (by simp))

private theorem countTerm_shuns : Shuns free (countTerm self) fun _ => [] := by
  refine .bind (expect_shuns rfl) fun id => .bind (stringReference_shuns (by simp))
    fun _ => .bind (accept_shuns rfl) fun in_ => ?_
  cases in_ with
  | some in_ => exact .bind (range_shuns readers) fun bounds => .pure (by simp)
  | none => exact .pure (by simp)

private theorem indexedTerm_shuns (measured : Bool) : Shuns free (indexedTerm self measured) fun _ => [] := by
  have plain : isDirective (if measured then .stringLength else .stringOffset) = false := by cases measured <;> rfl
  refine .bind (expect_shuns plain) fun id => .bind (stringReference_shuns (by simp)) fun _ => .bind (accept_shuns rfl)
    fun opening => ?_
  cases opening with
  | some opening =>
    exact .bind (readers _) fun index => .bind (checkOperand_shuns _ _ _ _) fun _ => .bind (expect_shuns rfl)
      fun closing => .pure (by simp)
  | none => exact .pure (by simp)

private theorem integerFunction_shuns {function : Handle} (known : function ∈ free) :
    Shuns free (integerFunction self function) fun _ => [] := by
  refine .bind (refine_shuns rfl known) fun _ => .bind (expect_shuns rfl) fun opening => .bind (readers _) fun arg => ?_
  exact .bind (checkOperand_shuns _ _ _ _) fun _ => .bind (expect_shuns rfl) fun closing => .pure (by simp)

private theorem term_shuns : Shuns free (term self) fun _ => [] := by
  refine .peek fun next => ?_
  split
  · exact .bind (advance_shuns rfl) fun token => .pure (by simp)
  · exact .bind (advance_shuns rfl) fun token => .pure (by simp)
  · exact .bind (advance_shuns rfl) fun token => .pure (by simp)
  · exact .bind (advance_shuns rfl) fun token => .pure (by simp)
  · exact .bind (advance_shuns rfl) fun token => .pure (by simp)
  · exact .bind (advance_shuns rfl) fun token => .bind (checkEscapes_shuns token) fun _ => .pure (by simp)
  · exact .bind (advance_shuns rfl) fun token => .bind (readRegexp_shuns token) fun _ => .pure (by simp)
  · exact .any (stringTerm_shuns readers)
  · exact .any (countTerm_shuns readers)
  · exact .any (indexedTerm_shuns readers false)
  · exact .any (indexedTerm_shuns readers true)
  · exact .any (parenthesized_shuns readers)
  · refine .bind (advance_shuns rfl) fun token => .skip (fun _ => rfl) fun text => .skip (fun _ => rfl) fun next => ?_
    exact .ite (fun _ => integerFunction_shuns readers (by simp)) fun _ => name_shuns (by simp)
  · exact .any (.never (never_unexpected _))

/-! ### Fields, elements and calls -/

omit readers in
private theorem fieldOf_shuns (structure_ : Expr) : Shuns free (fieldOf structure_) fun _ => [] := by
  refine .bind (expect_shuns rfl) fun dot => .bind (expect_shuns rfl) fun member => .skip (fun _ => rfl)
    fun parent => ?_
  cases parent with
  | none => exact .skip (fun _ => rfl) fun _ => .never (never_fail _ _)
  | some parent =>
    refine .ite (fun _ => .skip (fun _ => rfl) fun text => ?_) fun _ => .skip (fun _ => rfl)
      fun _ => .never (never_fail _ _)
    split
    · exact .bind (refine_shuns rfl (by simp)) fun _ => .bind (setLiteral_shuns _ (by simp)) fun _ => .pure (by simp)
    · exact .never (never_fail _ _)

private theorem elementOf_shuns (array : Expr) : Shuns free (elementOf self array) fun _ => [] := by
  refine .bind (expect_shuns rfl) fun opening => .skip (fun _ => rfl) fun symbol => ?_
  have rest {free : List Handle} (expected : OperandClass) (container : String) :
      Shuns free (elementEnd self array opening symbol expected container) fun _ => [] := by
    unfold elementEnd
    refine .bind (readers _) fun index => .ite (fun _ => .skip (fun _ => rfl) fun tokens => ?_) fun _ => ?_
    · exact .never ((never_fail _ _).bind _)
    · exact .bind (expect_shuns rfl) fun closing => .pure (by simp)
  refine .ite (fun _ => rest .integer "an array") fun _ => .ite (fun _ => rest .string "a dictionary") fun _ =>
    .skip (fun _ => rfl) fun tokens => ?_
  exact .never ((never_fail _ _).bind _)

private theorem arguments_shuns : Shuns free (arguments self) fun _ => [] := by
  refine .skip (fun _ => rfl) fun _ => .ite (fun _ => .pure (by simp)) fun _ => .skip (fun _ => rfl) fun bound => ?_
  exact (separated_shuns rfl (readers _) bound).forget

private theorem callOf_shuns (function : Expr) : Shuns free (callOf self function) fun _ => [] := by
  refine .bind (expect_shuns rfl) fun opening => .bind (arguments_shuns readers) fun args => ?_
  refine .bind (expect_shuns rfl) fun closing => .skip (fun _ => rfl) fun symbol => ?_
  dsimp only
  split
  · exact .pure (by simp)
  · exact .skip (fun _ => rfl) fun _ => .never (never_fail _ _)

private theorem accesses_shuns : ∀ {free} bound (e : Expr), Shuns free (accesses self bound e) fun _ => []
  | _, 0, _ => .pure (by simp)
  | _, bound + 1, e => by
    refine .skip (fun _ => rfl) fun next => ?_
    split
    · exact .bind (fieldOf_shuns e) fun e => accesses_shuns bound e
    · exact .bind (elementOf_shuns readers e) fun e => accesses_shuns bound e
    · refine .skip (fun _ => rfl) fun symbol => .ite (fun _ => ?_) fun _ => .pure (by simp)
      exact .bind (callOf_shuns readers e) fun e => accesses_shuns bound e
    · exact .pure (by simp)

/-! ### Levels -/

omit readers in
private theorem ofKind_plain {kind : TokenKind} {op : BinaryOp} (known : BinaryOp.ofKind? kind = some op) :
    isDirective kind = false := by
  cases kind <;> first | rfl | cases known

omit readers in
private theorem operator_ensures {pre : State → Prop} (level : Level) : Ensures pre (operator? level) fun op s =>
    pre s ∧ ∀ known, op = some known → ∃ kind, isDirective kind = false ∧ Next kind s := by
  refine .look (fun _ => rfl) fun next => ?_
  split
  next op found =>
    obtain ⟨kind, rfl, known⟩ := Option.bind_eq_some_iff.mp found
    refine .ite (fun _ => .pure fun s known => ⟨known.2, nofun⟩) fun _ => .skip (fun _ => rfl) fun second => ?_
    refine .ite (fun _ => .pure fun s known => ⟨known.2, nofun⟩) fun _ => .pure fun s seen => ⟨seen.2, fun _ _ => ?_⟩
    exact ⟨kind, ofKind_plain known, seen.1⟩
  next => exact .pure fun s known => ⟨known.2, nofun⟩

private theorem operations_shuns (level : Level) :
    ∀ {free} bound left, Shuns free (operations self level bound left) fun _ => []
  | _, 0, _ => .pure (by simp)
  | free, bound + 1, left => by
    intro start
    refine .bind (operator_ensures level) fun op => ?_
    cases op with
    | none => exact .pure fun s known => known.1
    | some op =>
      have goes {kind : TokenKind} (plain : isDirective kind = false) : ShunsAt (some kind) free (do
          let token ← advance
          let right ← self level.tighter
          operations self level bound (← binary op left token right)) fun _ => [] :=
        .bind (advance_shuns plain) fun token => .bind (readers _) fun right =>
          .bind (binary_shuns op left token right) fun e => operations_shuns level bound e
      rintro s e s' done ⟨intact, known⟩
      obtain ⟨kind, plain, next⟩ := known op rfl
      exact goes plain start s e s' done ⟨next, intact⟩

private theorem negation_shuns : Shuns free (negation self) fun _ => [] := by
  refine .peek fun next => ?_
  split
  · exact .bind (advance_shuns rfl) fun token => .bind (readers _) fun operand => unary_shuns .not token operand
  · exact .bind (advance_shuns rfl) fun token => .bind (readers _) fun operand => unary_shuns .defined token operand
  · exact .any (readers _)

private theorem quantified_shuns : Shuns free (quantified self) fun _ => [] := by
  refine .skip (fun _ => rfl) fun next => .skip (fun _ => rfl) fun second => ?_
  refine .ite (fun _ => loop_shuns readers) fun _ => .ite (fun _ => ?_) fun _ => ?_
  · exact .bind (quantifier_shuns readers) fun quantifier => ofRest_shuns readers quantifier
  refine .bind (readers _) fun e => .skip (fun _ => rfl) fun next => .skip (fun _ => rfl) fun second => ?_
  refine .ite (fun _ => .bind (percentage_shuns e) fun e => ofRest_shuns readers e) fun _ => ?_
  refine .ite (fun _ => .skip (fun _ => rfl) fun next => ?_) fun _ => .pure (by simp)
  cases next with
  | some of_ => exact .bind (checkOperand_shuns _ _ _ _) fun _ => ofRest_shuns readers e
  | none => exact ofRest_shuns readers e

private theorem signed_shuns : Shuns free (signed self) fun _ => [] := by
  refine .peek fun next => ?_
  split
  · refine .bind (advance_shuns rfl) fun token => .bind (refine_shuns rfl (by simp)) fun _ => ?_
    exact .bind (readers _) fun operand => unary_shuns .minus token operand
  · exact .bind (advance_shuns rfl) fun token => .bind (readers _) fun operand => unary_shuns .bitNot token operand
  · exact .any (readers _)

private theorem levelRule_shuns (level : Level) : Shuns free (levelRule self level) fun _ => [] := by
  unfold levelRule
  split
  · exact negation_shuns readers
  · exact quantified_shuns readers
  · exact signed_shuns readers
  · exact .bind (term_shuns readers) fun e => .skip (fun _ => rfl) fun bound => accesses_shuns readers bound e
  · exact .bind (readers _) fun left => .skip (fun _ => rfl) fun bound => operations_shuns readers _ bound left

end

private theorem exprWithin_shuns : ∀ {free} depth level, Shuns free (exprWithin depth level) fun _ => []
  | _, 0, _ => .never (never_unexpected _)
  | _, depth + 1, level => levelRule_shuns (exprWithin_shuns depth) level

theorem condition_shuns : Shuns free condition fun _ => [] := .skip (fun _ => rfl) fun _ => exprWithin_shuns _ _

end YaraRules.Grammar
