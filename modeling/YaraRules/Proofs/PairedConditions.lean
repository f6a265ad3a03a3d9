import YaraRules.Proofs.PairedLoops

/-! Conditions, read side by side: wherever the first reading finds an expression, the second
finds the same one with the partners of its tokens. -/

namespace YaraRules.Grammar

variable {c : Pairing} {s t s' t' : State} {bound : Nat} {self self' : Readers} {used : List Handle} {e : Expr}

/-! ### Single terms -/

theorem Abreast.stringTerm (abreast : Abreast c s t) (readers : ReadersFollow c bound self self')
    (room : 15 * t.source.rest.length ≤ bound) :
    Follows (Grammar.stringTerm self) (Grammar.stringTerm self') s t (ReadExpr c s t) := by
  unfold Grammar.stringTerm
  refine abreast.expect (by decide) fun id s₁ t₁ read held kind => ?_
  refine read.abreast.stringReference held (by rw [kind]; rfl) fun s₂ t₂ touched => ?_
  have entered := read.touch touched (List.Subset.refl _)
  have alone : ReadExpr c s t (.atom .boolean .stringRef id) (.atom .boolean .stringRef (c.partner id)) s₂ t₂ :=
    ⟨rfl, _, entered, .atom kind rfl rfl (by simp)⟩
  refine touched.abreast.peek ?_ fun _ => .pure alone
  cases seen : c.next s₂ with
  | none => exact .pure alone
  | some next =>
    cases next
    case kwAt =>
      refine touched.abreast.advance seen (by decide) fun at_ s₃ t₃ word held' kind' => ?_
      have before := entered.trans word
      refine .bind (readers .bitOr word.abreast (before.deeper (by simp) room .bitOr)) ?_
      rintro offset _ s₄ t₄ ⟨rfl, u, read', spells⟩
      refine .checkOperand (offset.type_mapHandles _) (.pure ?_)
      exact ⟨rfl, _, before.trans read', .stringAt kind kind' spells⟩
    case kwIn =>
      refine touched.abreast.advance seen (by decide) fun in_ s₃ t₃ word held' kind' => ?_
      have before := entered.trans word
      refine .bind (word.abreast.range readers (before.room room)) ?_
      rintro bounds _ s₄ t₄ ⟨rfl, u, read', spells⟩
      exact .pure ⟨rfl, _, before.trans read', .stringIn kind rfl kind' spells⟩
    all_goals exact .pure alone

theorem Abreast.countTerm (abreast : Abreast c s t) (readers : ReadersFollow c bound self self')
    (room : 15 * t.source.rest.length ≤ bound) :
    Follows (Grammar.countTerm self) (Grammar.countTerm self') s t (ReadExpr c s t) := by
  unfold Grammar.countTerm
  refine abreast.expect (by decide) fun id s₁ t₁ read held kind => ?_
  refine read.abreast.stringReference held (by rw [kind]; rfl) fun s₂ t₂ touched => ?_
  have entered := read.touch touched (List.Subset.refl _)
  refine touched.abreast.accept (by decide) ?_ fun _ => ?_
  · intro in_ s₃ t₃ word held' kind'
    have before := entered.trans word
    refine .bind (word.abreast.range readers (before.room room)) ?_
    rintro bounds _ s₄ t₄ ⟨rfl, u, read', spells⟩
    exact .pure ⟨rfl, _, before.trans read', .stringIn kind rfl kind' spells⟩
  · exact .pure ⟨rfl, _, entered, .atom kind rfl rfl (by simp)⟩

theorem Abreast.indexedTerm (abreast : Abreast c s t) (readers : ReadersFollow c bound self self')
    (room : 15 * t.source.rest.length ≤ bound) (measured : Bool) :
    Follows (Grammar.indexedTerm self measured) (Grammar.indexedTerm self' measured) s t (ReadExpr c s t) := by
  unfold Grammar.indexedTerm
  have kinds : ∃ k, (if measured then TokenKind.stringLength else .stringOffset) = k ∧ isReference k = true ∧
      startsExpr k = true ∧ endsExpr k = true ∧ k ≠ .closeBrace := by
    cases measured <;> exact ⟨_, rfl, rfl, rfl, rfl, by decide⟩
  obtain ⟨k, which, reference, starts, ends, more⟩ := kinds
  rw [which]
  refine abreast.expect more fun id s₁ t₁ read held kind => ?_
  refine read.abreast.stringReference held (by rw [kind, reference]) fun s₂ t₂ touched => ?_
  have entered := read.touch touched (List.Subset.refl _)
  refine touched.abreast.accept (by decide) ?_ fun _ => ?_
  · intro opening s₃ t₃ opened held' kind'
    have before := entered.trans opened
    refine .bind (readers .bitOr opened.abreast (before.deeper (by simp) room .bitOr)) ?_
    rintro index _ s₄ t₄ ⟨rfl, u, read', spells⟩
    refine .checkOperand (index.type_mapHandles _) ?_
    refine read'.abreast.expect (by decide) fun closing s₅ t₅ closed held'' kind'' => ?_
    exact .pure ⟨rfl, _, (before.trans read').trans closed, .stringIndexed kind starts
      (.fixed held' opened.abreast kind' rfl rfl) spells (.fixed held'' closed.abreast kind'' rfl rfl)⟩
  · refine .pure ⟨rfl, _, entered, .atom kind starts ends fun name => ?_⟩
    cases measured <;> cases name

theorem Advanced.integerFunction {function : Handle} (read : Advanced c s t s' t' [function])
    (held : Held c s' function)
    (kind : (c.lexed function).kind = .identifier) (readers : ReadersFollow c bound self self')
    (room : 15 * t.source.rest.length ≤ bound) :
    Follows (Grammar.integerFunction self function) (Grammar.integerFunction self' (c.partner function)) s' t'
      (ReadExpr c s t) := by
  unfold Grammar.integerFunction
  refine read.abreast.refine held (by rw [kind]; rfl) rfl fun s₁ t₁ touched _ => ?_
  have entered := read.touch touched (List.Subset.refl _)
  refine touched.abreast.expect (by decide) fun opening s₂ t₂ opened held' kind' => ?_
  have before := entered.trans opened
  refine .bind (readers .bitOr opened.abreast (before.deeper (by simp) room .bitOr)) ?_
  rintro arg _ s₃ t₃ ⟨rfl, u, read', spells⟩
  refine .checkOperand (arg.type_mapHandles _) ?_
  refine read'.abreast.expect (by decide) fun closing s₄ t₄ closed held'' kind'' => ?_
  exact .pure ⟨rfl, _, (before.trans read').trans closed,
    .integerFunction kind (.fixed held' opened.abreast kind' rfl rfl)
    spells (.fixed held'' closed.abreast kind'' rfl rfl)⟩

theorem Abreast.term (abreast : Abreast c s t) (readers : ReadersFollow c bound self self')
    (room : 15 * t.source.rest.length ≤ bound) :
    Follows (Grammar.term self) (Grammar.term self') s t (ReadExpr c s t) := by
  unfold Grammar.term
  refine abreast.peek ?_ fun _ => .unexpected _
  cases seen : c.next s with
  | none => exact .unexpected _
  | some kind =>
    cases kind
    case boolean => exact abreast.atom seen rfl rfl (by decide)
    case integer => exact abreast.atom seen rfl rfl (by decide)
    case float => exact abreast.atom seen rfl rfl (by decide)
    case kwFilesize => exact abreast.atom seen rfl rfl (by decide)
    case kwEntrypoint => exact abreast.atom seen rfl rfl (by decide)
    case string =>
      refine abreast.advance seen (by decide) fun token s₁ t₁ read held kind => ?_
      refine read.abreast.checkEscapes held ?_
      exact .pure ⟨rfl, _, read, .atom kind rfl rfl (by simp)⟩
    case regexp =>
      refine abreast.advance seen (by decide) fun token s₁ t₁ read held kind => ?_
      exact read.abreast.readRegexp held fun regexp => .pure ⟨rfl, _, read, .regexp kind⟩
    case stringName => exact abreast.stringTerm readers room
    case stringCount => exact abreast.countTerm readers room
    case stringOffset => exact abreast.indexedTerm readers room false
    case stringLength => exact abreast.indexedTerm readers room true
    case openParen => exact abreast.parenthesized readers room
    case identifier =>
      refine abreast.advance seen (by decide) fun token s₁ t₁ read held kind => ?_
      have named : Follows (Grammar.name token) (Grammar.name (c.partner token)) s₁ t₁ (ReadExpr c s t) :=
        (read.abreast.name held kind).weaken fun _ _ _ _ named => named.read read kind
      refine read.abreast.textOf held.paired held.found ?_
      refine read.abreast.peek ?_ fun _ => ?_
      · split_ifs
        · exact read.integerFunction held kind readers room
        · exact named
      · simpa using named
    all_goals exact .unexpected _

/-! ### Fields, elements and calls -/

private theorem selection_of_symbol {x : TokenStream} {symbol : Symbol} (found : symbolIn? x e = some symbol) :
    isSelection e = true := by
  cases e with
  | atom _ kind _ =>
    cases kind with
    | name => rfl
    | _ => cases found
  | field => rfl
  | index => rfl
  | _ => cases found

private theorem name_of_attribute {parent symbol : Symbol} {name : String}
    (found : parent.attribute? name = some symbol) : symbol.name = name := by
  simpa using List.find?_some found

/-- More tokens were read for an expression on both sides. -/
def Extended (c : Pairing) (used : List Handle) (s t : State) (e e' : Expr) (s' t' : State) : Prop :=
  e' = e.mapHandles c.partner ∧ ∃ more, more ≠ [] ∧ Advanced c s t s' t' more ∧ Spells c (used ++ more) e

theorem Advanced.fieldOf (front : Advanced c s t s' t' used) (spells : Spells c used e) :
    Follows (Grammar.fieldOf e) (Grammar.fieldOf (e.mapHandles c.partner)) s' t' (Extended c used s' t') := by
  unfold Grammar.fieldOf
  refine front.abreast.expect (by decide) fun dot s₁ t₁ dotted held kind => ?_
  refine dotted.abreast.expect (by decide) fun member s₂ t₂ read held' kind' => ?_
  refine read.abreast.symbolOf (spells.paired front) ?_
  cases found : symbolIn? s₂.source.tokens e with
  | none => exact .of_fails ⟨_, rfl⟩
  | some parent =>
    dsimp only
    split_ifs
    · refine read.abreast.textOf held'.paired held'.found ?_
      cases among : parent.attribute? (c.word member) with
      | none => exact .fail member _
      | some symbol =>
        refine read.abreast.refine held' (by rw [kind']; rfl) rfl fun s₃ t₃ touched found' => ?_
        refine touched.abreast.setSymbol held'.paired found' (touched.rest ▸ held'.read) rfl (name_of_attribute among)
          fun s₄ t₄ touched' => ?_
        have both := read.touch (touched.trans touched') (List.Subset.refl _)
        have whole : Spells c (used ++ [dot] ++ [member]) (.field symbol.type e dot member) :=
          spells.field (selection_of_symbol found) (.fixed held dotted.abreast kind rfl rfl) kind'
        exact .pure ⟨rfl, _, by simp, dotted.trans both, by simpa using whole⟩
    · exact .of_fails ⟨_, rfl⟩

theorem Advanced.elementOf (front : Advanced c s t s' t' used) (spells : Spells c used e)
    (readers : ReadersFollow c bound self self') (room : 15 * t.source.rest.length ≤ bound) :
    Follows (Grammar.elementOf self e)
    (Grammar.elementOf self' (e.mapHandles c.partner)) s' t' (Extended c used s' t') := by
  unfold Grammar.elementOf
  refine front.abreast.expect (by decide) fun opening s₁ t₁ opened held kind => ?_
  have before := front.trans opened
  refine opened.abreast.symbolOf (spells.paired front) ?_
  generalize symbolIn? s₁.source.tokens e = symbol
  have tail : ∀ access : OperandClass × String, Follows
      (do
        let index ← self .disjunction
        if !access.1.accepts index.type then
          let tokens ← Grammar.tokens
          Grammar.fail opening (.invalidAccess (e.text tokens ++ "[" ++ index.text tokens ++ "]")
            ("a valid index for " ++ access.2))
        let closing ← Grammar.expect .closeBracket
        return .index ((symbol.bind Symbol.elementType?).getD .undefined) e opening index closing)
      (do
        let index ← self' .disjunction
        if !access.1.accepts index.type then
          let tokens ← Grammar.tokens
          Grammar.fail (c.partner opening) (.invalidAccess ((e.mapHandles c.partner).text tokens ++ "[" ++
            index.text tokens ++ "]")
            ("a valid index for " ++ access.2))
        let closing ← Grammar.expect .closeBracket
        return .index ((symbol.bind Symbol.elementType?).getD .undefined) (e.mapHandles c.partner)
          (c.partner opening) index
          closing) s₁ t₁ (Extended c used s' t') := by
    rintro ⟨expected, container⟩
    refine .bind (readers .disjunction opened.abreast (before.deeper (by simp) room .disjunction)) ?_
    rintro index _ s₂ t₂ ⟨rfl, u, read, spells'⟩
    rw [index.type_mapHandles]
    split_ifs
    · exact .of_fails ⟨_, rfl⟩
    · refine read.abreast.expect (by decide) fun closing s₃ t₃ closed held' kind' => ?_
      have whole (type : ValueType) : Spells c (used ++ [opening] ++ u ++ [closing])
          (.index type e opening index closing) :=
        spells.index (.fixed held opened.abreast kind rfl rfl) spells' (.fixed held' closed.abreast kind' rfl rfl)
      exact .pure ⟨rfl, _, by simp, (opened.trans read).trans closed, by simpa using whole _⟩
  split_ifs
  · exact tail (.integer, "an array")
  · exact tail (.string, "a dictionary")
  · exact .of_fails ⟨_, rfl⟩

/-- Arguments are read for a list of tokens that is empty if there are none. -/
def ReadArguments (c : Pairing) (s t : State) (args args' : List Expr) (s' t' : State) : Prop :=
  args' = Expr.mapHandlesAll c.partner args ∧ ∃ used, Advanced c s t s' t' used ∧
    (args = [] ∧ used = [] ∨ Listed c used (args.map (·.textWith c.word)) ∧ Comprises c used (Expr.handlesAll args))

theorem Abreast.arguments (abreast : Abreast c s t) (readers : ReadersFollow c bound self self')
    (room : 15 * t.source.rest.length + 14 ≤ bound) :
    Follows (Grammar.arguments self) (Grammar.arguments self') s t (ReadArguments c s t) := by
  unfold Grammar.arguments
  have listed : Follows
      (remaining >>= fun left => Grammar.separated .comma (self .disjunction) left)
      (remaining >>= fun left => Grammar.separated .comma (self' .disjunction) left) s t (ReadArguments c s t) := by
    refine .step rfl rfl ?_
    refine (Abreast.separated (by decide) (fun abreast _ few => (readers .disjunction abreast ?_).item) _ _
      abreast (Nat.le_refl _) (Nat.le_refl _) (Nat.le_refl _) (Nat.le_refl _)).weaken ?_
    · show _ + 14 ≤ _
      omega
    · rintro args args' s' t' ⟨used, advanced, items⟩
      obtain ⟨same, listed, handles⟩ := items.exprs
      exact ⟨same, used, advanced, .inr ⟨listed, handles⟩⟩
  refine abreast.peek ?_ fun _ => listed
  split_ifs
  · exact .pure ⟨rfl, [], .refl abreast, .inl ⟨rfl, rfl⟩⟩
  · exact listed

theorem Advanced.callOf (front : Advanced c s t s' t' used) (spells : Spells c used e)
    (readers : ReadersFollow c bound self self') (room : 15 * t.source.rest.length ≤ bound) :
    Follows (Grammar.callOf self e) (Grammar.callOf self' (e.mapHandles c.partner)) s' t' (Extended c used s' t') := by
  unfold Grammar.callOf
  refine front.abreast.expect (by decide) fun opening s₁ t₁ opened held kind => ?_
  have before := front.trans opened
  have open_ := Spelled.fixed held opened.abreast kind rfl rfl
  refine .bind (opened.abreast.arguments readers (before.deeper (by simp) room .disjunction)) ?_
  rintro args _ s₂ t₂ ⟨rfl, inside, read, listed⟩
  refine read.abreast.expect (by decide) fun closing s₃ t₃ closed held' kind' => ?_
  have close := Spelled.fixed held' closed.abreast kind' rfl rfl
  have types : (Expr.mapHandlesAll c.partner args).map Expr.type = args.map Expr.type := by
    simp [Expr.mapHandlesAll_eq, Function.comp_def]
  refine closed.abreast.symbolOf (spells.paired front) ?_
  rw [types]
  dsimp only
  cases List.find? _ _ with
  | none => exact .of_fails ⟨_, rfl⟩
  | some signature =>
    refine .pure ⟨rfl, _, by simp, (opened.trans read).trans closed, ?_⟩
    rcases listed with ⟨rfl, rfl⟩ | ⟨listed, handles⟩
    · simpa using spells.callNone open_ close
    · simpa using spells.call open_ listed handles close

private theorem run_accesses_end {next : Option TokenKind} (seen : peek?.run s = .ok (next, s))
    (ends : next = none ∨ next = some .closeBrace) (n : Nat) : (accesses self n e).run s = .ok (e, s) := by
  cases n with
  | zero => rfl
  | succ n =>
    rw [accesses, StateT.run_bind, seen]
    rcases ends with rfl | rfl <;> rfl

private theorem run_operations_end {next : Option TokenKind} (seen : peek?.run s = .ok (next, s))
    (ends : next = none ∨ next = some .closeBrace) (level : Level) (n : Nat) :
    (operations self level n e).run s = .ok (e, s) := by
  cases n with
  | zero => rfl
  | succ n =>
    rw [operations, operator?, StateT.run_bind, StateT.run_bind, seen]
    rcases ends with rfl | rfl <;> rfl

theorem Advanced.accesses (readers : ReadersFollow c bound self self') (room : 15 * t.source.rest.length ≤ bound) :
    ∀ (n n' : Nat) {s' t' : State} {e : Expr} {used : List Handle}, Advanced c s t s' t' used → Spells c used e →
      s'.source.rest.length ≤ n → t'.source.rest.length ≤ n' →
      Follows (Grammar.accesses self n e)
      (Grammar.accesses self' n' (e.mapHandles c.partner)) s' t' (ReadExpr c s t) := by
  intro n
  induction n with
  | zero =>
    intro n' s' t' e used front spells few few'
    have done : s'.source.rest = [] := List.length_eq_zero_iff.mp (Nat.le_zero.mp few)
    have done' := front.abreast.nil_of_nil done
    exact .of_runs rfl (run_accesses_end (run_peek_nil done') (.inl rfl) n') ⟨rfl, used, front, spells⟩
  | succ n later =>
    intro n' s' t' e used front spells few few'
    have whole : ReadExpr c s t e (e.mapHandles c.partner) s' t' := ⟨rfl, used, front, spells⟩
    cases n' with
    | zero =>
      have done : t'.source.rest = [] := List.length_eq_zero_iff.mp (Nat.le_zero.mp few')
      exact .of_runs (run_accesses_end front.abreast.run_peek (front.abreast.next_of_nil done) (n + 1)) rfl whole
    | succ n' =>
      have next : ∀ e e' s'' t'', Extended c used s' t' e e' s'' t'' →
          Follows (Grammar.accesses self n e) (Grammar.accesses self' n' e') s'' t'' (ReadExpr c s t) := by
        rintro e _ s'' t'' ⟨rfl, more, nonempty, read, spells⟩
        have length := read.length
        have length' := read.length_first
        have positive := List.length_pos_iff.mpr nonempty
        exact later n' (front.trans read) spells (by omega) (by omega)
      unfold Grammar.accesses
      refine front.abreast.peek ?_ fun _ => .pure whole
      cases seen : c.next s' with
      | none => exact .pure whole
      | some kind =>
        cases kind
        case dot => exact .bind (front.fieldOf spells) next
        case openBracket => exact .bind (front.elementOf spells readers room) next
        case openParen =>
          refine front.abreast.symbolOf (spells.paired front) ?_
          split_ifs
          · exact .bind (front.callOf spells readers room) next
          · exact .pure whole
        all_goals exact .pure whole

/-! ### Levels -/

section

variable {α β : Type} {post : α → β → State → State → Prop}

private theorem Abreast.peekSecond (abreast : Abreast c s t) {f : Option TokenKind → Parse α}
    {g : Option TokenKind → Parse β}
    (next : ∀ kind kind', (c.next s ≠ some .closeBrace → (kind' == some TokenKind.kwOf) = (kind == some .kwOf)) →
      Follows (f kind) (g kind') s t post) :
    Follows (peekAt? 1 >>= f) (peekAt? 1 >>= g) s t post := by
  have aligned := abreast.rest
  have kind : ∀ h, h ∈ s.source.rest → c.paired h →
      (t.source.tokens.get? (c.partner h)).map (·.kind) = some (c.lexed h).kind ∧
        (s.source.tokens.get? h).map (·.kind) = some (c.lexed h).kind := by
    intro h member paired
    obtain ⟨b, found, same, -⟩ := abreast.tokens.get? paired (abreast.unread h member).1
    simp [found, same, (abreast.unread h member).1]
  have alone : ∀ h, h ∈ s.source.rest → (s.source.tokens.get? h).map (·.kind) = some (c.lexed h).kind :=
    fun h member => by simp [(abreast.unread h member).1]
  refine .step (run_peekAt 1 s) (run_peekAt 1 t) (next _ _ ?_)
  unfold Pairing.next
  generalize s.source.rest = mine at aligned kind alone
  generalize t.source.rest = theirs at aligned
  cases aligned with
  | nil => exact fun _ => rfl
  | cut brace => exact fun other => absurd (by simp [brace]) other
  | cons _ later =>
    intro _
    cases later with
    | nil => rfl
    | cut brace => simp [alone, brace]
    | cons paired _ => simp [kind _ _ paired]

private theorem kind_of_operator {kind : TokenKind} {op : BinaryOp} (found : BinaryOp.ofKind? kind = some op) :
    op.kind = kind := by
  simpa using List.find?_some found

theorem Abreast.operator (abreast : Abreast c s t) (level : Level) {f : Option BinaryOp → Parse α}
    {g : Option BinaryOp → Parse β}
    (found : ∀ op, c.next s = some op.kind → Follows (f (some op)) (g (some op)) s t post)
    (passed : Follows (f none) (g none) s t post) : Follows (operator? level >>= f)
    (operator? level >>= g) s t post := by
  unfold operator?
  rw [bind_assoc, bind_assoc]
  refine abreast.peek ?_ fun _ => passed
  cases seen : c.next s with
  | none => exact passed
  | some kind =>
    dsimp only [Option.bind_some]
    cases which : BinaryOp.ofKind? kind with
    | none => exact passed
    | some op =>
      have same := kind_of_operator which
      have taken := found op (by rw [seen, same])
      dsimp only
      split_ifs
      · exact passed
      · rw [bind_assoc, bind_assoc]
        refine abreast.peekSecond fun kind kind' equal => ?_
        have other : c.next s ≠ some .closeBrace := by
          rw [seen, ← same]
          cases op <;> simp [BinaryOp.kind]
        rw [equal other]
        split_ifs
        · exact passed
        · exact taken

end

private theorem BinaryOp.kind_plain (op : BinaryOp) :
    op.kind ≠ .closeBrace ∧ op.kind ≠ .dot ∧ Lexer.isWord op.kind = true := by
  cases op <;> decide

theorem Advanced.operations (readers : ReadersFollow c bound self self') (room : 15 * t.source.rest.length ≤ bound)
    (level : Level) : ∀ (n n' : Nat) {s' t' : State} {e : Expr} {used : List Handle}, Advanced c s t s' t' used →
      Spells c used e → s'.source.rest.length ≤ n → t'.source.rest.length ≤ n' →
      Follows (Grammar.operations self level n e) (Grammar.operations self' level n' (e.mapHandles c.partner)) s' t'
        (ReadExpr c s t) := by
  intro n
  induction n with
  | zero =>
    intro n' s' t' e used front spells few few'
    have done : s'.source.rest = [] := List.length_eq_zero_iff.mp (Nat.le_zero.mp few)
    have done' := front.abreast.nil_of_nil done
    exact .of_runs rfl (run_operations_end (run_peek_nil done') (.inl rfl) level n') ⟨rfl, used, front, spells⟩
  | succ n later =>
    intro n' s' t' e used front spells few few'
    have whole : ReadExpr c s t e (e.mapHandles c.partner) s' t' := ⟨rfl, used, front, spells⟩
    cases n' with
    | zero =>
      have done : t'.source.rest = [] := List.length_eq_zero_iff.mp (Nat.le_zero.mp few')
      exact .of_runs (run_operations_end front.abreast.run_peek (front.abreast.next_of_nil done) level
        (n + 1)) rfl whole
    | succ n' =>
      unfold Grammar.operations
      refine front.abreast.operator level (fun op seen => ?_) (.pure whole)
      obtain ⟨brace, dot, word⟩ := BinaryOp.kind_plain op
      refine front.abreast.advance seen brace fun token s₁ t₁ read held kind => ?_
      have before := front.trans read
      refine .bind (readers level.tighter read.abreast (before.deeper (by simp) room level.tighter)) ?_
      rintro right _ s₂ t₂ ⟨rfl, u, read', spells'⟩
      refine .binary (e.type_mapHandles _) (right.type_mapHandles _) fun type => ?_
      have all := before.trans read'
      have length := (read.trans read').length
      have length' := (read.trans read').length_first
      simp only [List.length_append, List.length_singleton] at length length'
      exact later n' all (spells.binary kind word dot spells') (by omega) (by omega)

/-- An operator and its operand, of which the first has been read. -/
theorem Advanced.unary {token : Handle} {k : TokenKind} (read : Advanced c s t s' t' [token])
    (kind : (c.lexed token).kind = k)
    (starts : startsExpr k = true) (readers : ReadersFollow c bound self self')
    (room : 15 * t.source.rest.length ≤ bound)
    (op : UnaryOp) (kinds : op.isWord = true ∧ k ≠ .dot ∨ op.isWord = false ∧ (k = .minus ∨ k = .bitNot))
    (level : Level) :
    Follows (self level >>= fun e => Grammar.unary op token e)
    (self' level >>= fun e => Grammar.unary op (c.partner token) e)
      s' t' (ReadExpr c s t) := by
  refine .bind (readers level read.abreast (read.deeper (by simp) room level)) ?_
  rintro e _ s₁ t₁ ⟨rfl, u, read', spells⟩
  refine .unary (e.type_mapHandles _) fun type => ?_
  exact ⟨rfl, _, read.trans read', spells.unary kind starts kinds⟩

theorem Abreast.negation (abreast : Abreast c s t) (readers : ReadersFollow c bound self self')
    (room : 15 * t.source.rest.length + Level.quantified.rank ≤ bound) :
    Follows (Grammar.negation self) (Grammar.negation self') s t (ReadExpr c s t) := by
  unfold Grammar.negation
  have room' : 15 * t.source.rest.length ≤ bound := by omega
  have other := readers .quantified abreast room
  refine abreast.peek ?_ fun _ => other
  cases seen : c.next s with
  | none => exact other
  | some kind =>
    cases kind
    case kwNot =>
      refine abreast.advance seen (by decide) fun token s₁ t₁ read held kind => ?_
      exact read.unary kind rfl readers room' .not (.inl ⟨rfl, by decide⟩) .negation
    case kwDefined =>
      refine abreast.advance seen (by decide) fun token s₁ t₁ read held kind => ?_
      exact read.unary kind rfl readers room' .defined (.inl ⟨rfl, by decide⟩) .negation
    all_goals exact other

theorem Abreast.signed (abreast : Abreast c s t) (readers : ReadersFollow c bound self self')
    (room : 15 * t.source.rest.length + Level.access.rank ≤ bound) :
    Follows (Grammar.signed self) (Grammar.signed self') s t (ReadExpr c s t) := by
  unfold Grammar.signed
  have room' : 15 * t.source.rest.length ≤ bound := by omega
  have other := readers .access abreast room
  refine abreast.peek ?_ fun _ => other
  cases seen : c.next s with
  | none => exact other
  | some kind =>
    cases kind
    case minus =>
      refine abreast.advance seen (by decide) fun token s₁ t₁ read held kind => ?_
      refine read.abreast.refine held (by rw [kind]; rfl) rfl fun s₂ t₂ touched _ => ?_
      exact (read.touch touched (List.Subset.refl _)).unary kind rfl readers room' .minus (.inr ⟨rfl, .inl rfl⟩) .sign
    case bitNot =>
      refine abreast.advance seen (by decide) fun token s₁ t₁ read held kind => ?_
      exact read.unary kind rfl readers room' .bitNot (.inr ⟨rfl, .inr rfl⟩) .sign
    all_goals exact other

/-- A quantifier that may turn out to be an operand is read as one first. -/
theorem Abreast.compared (abreast : Abreast c s t) (readers : ReadersFollow c bound self self')
    (room : 15 * t.source.rest.length + Level.equality.rank ≤ bound) :
    Follows
      (do
        let e ← self .equality
        let next ← peek?
        let second ← peekAt? 1
        if next == some .modulo && second == some .kwOf then Grammar.ofRest self (← Grammar.percentage e)
        else if next == some .kwOf then
          match ← peekHandle? 0 with
          | some of_ => checkOperand of_ e .integer .left
          | none => Pure.pure ()
          Grammar.ofRest self e
        else return e)
      (do
        let e ← self' .equality
        let next ← peek?
        let second ← peekAt? 1
        if next == some .modulo && second == some .kwOf then Grammar.ofRest self' (← Grammar.percentage e)
        else if next == some .kwOf then
          match ← peekHandle? 0 with
          | some of_ => checkOperand of_ e .integer .left
          | none => Pure.pure ()
          Grammar.ofRest self' e
        else return e) s t (ReadExpr c s t) := by
  have room' : 15 * t.source.rest.length ≤ bound := by omega
  refine .bind (readers .equality abreast room) ?_
  rintro e _ s₁ t₁ ⟨rfl, used, read, spells⟩
  have whole : ReadExpr c s t e (e.mapHandles c.partner) s₁ t₁ := ⟨rfl, used, read, spells⟩
  refine read.abreast.peek ?_ fun brace => ?_
  · refine read.abreast.peekSecond fun kind kind' equal => ?_
    have rest := read.ofRest spells readers room'
    by_cases percent : c.next s₁ = some .modulo
    · rw [equal (by simp [percent]), percent]
      by_cases word : kind == some .kwOf
      · rw [word]
        refine .bind (read.percentage spells) ?_
        rintro p _ s₂ t₂ ⟨rfl, u, read', spells'⟩
        exact read'.ofRest spells' readers room'
      · rw [eq_false_of_ne_true word]
        exact .pure whole
    · simp only [show (c.next s₁ == some .modulo) =
        false by simpa using percent, Bool.false_and, Bool.false_eq_true, if_false]
      split_ifs
      · exact read.abreast.checkBefore (e.type_mapHandles _) rest
      · exact .pure whole
  · refine read.abreast.peekSecond fun kind kind' equal => ?_
    simpa using .pure whole

theorem Abreast.quantified (abreast : Abreast c s t) (readers : ReadersFollow c bound self self')
    (room : 15 * t.source.rest.length + Level.equality.rank ≤ bound) :
    Follows (Grammar.quantified self) (Grammar.quantified self') s t (ReadExpr c s t) := by
  unfold Grammar.quantified
  have room' : 15 * t.source.rest.length ≤ bound := by omega
  have compared := abreast.compared readers room
  refine abreast.peek (abreast.peekSecond fun kind kind' equal => ?_) fun brace =>
    abreast.peekSecond fun kind kind' _ => compared
  by_cases looping : c.next s = some .kwFor
  · simp only [looping, BEq.rfl, if_true]
    exact abreast.loop readers room'
  · simp only [show (c.next s == some .kwFor) = false by simpa using looping, Bool.false_eq_true, if_false]
    by_cases brace : c.next s = some .closeBrace
    · rw [brace]
      exact compared
    · rw [equal brace]
      split_ifs
      · refine .bind (abreast.quantifier readers (Nat.le_trans (Nat.add_le_add_left (by decide) _) room)) ?_
        rintro q _ s₁ t₁ ⟨rfl, u, read, spells⟩
        exact read.ofRest spells readers room'
      · exact compared

theorem Abreast.levelRule (abreast : Abreast c s t) (readers : ReadersFollow c bound self self') (level : Level)
    (room : 15 * t.source.rest.length + level.rank ≤ bound + 1) :
    Follows (Grammar.levelRule self level) (Grammar.levelRule self' level) s t (ReadExpr c s t) := by
  have positive : 1 ≤ level.rank := by
    cases level <;> decide
  have room' : 15 * t.source.rest.length ≤ bound := by omega
  have infixed : 15 * t.source.rest.length + level.tighter.rank ≤ bound → Follows
      (do
        let left ← self level.tighter
        Grammar.operations self level (← remaining) left)
      (do
        let left ← self' level.tighter
        Grammar.operations self' level (← remaining) left) s t (ReadExpr c s t) := by
    intro below
    refine .bind (readers level.tighter abreast below) ?_
    rintro left _ s₁ t₁ ⟨rfl, u, read, spells⟩
    exact .step rfl rfl (Advanced.operations readers room' level _ _ read spells (Nat.le_refl _) (Nat.le_refl _))
  cases level
  case negation => exact abreast.negation readers (Nat.le_of_succ_le_succ room)
  case quantified => exact abreast.quantified readers (Nat.le_of_succ_le_succ room)
  case sign => exact abreast.signed readers (Nat.le_of_succ_le_succ room)
  case access =>
    refine .bind (abreast.term readers room') ?_
    rintro e _ s₁ t₁ ⟨rfl, u, read, spells⟩
    exact .step rfl rfl (Advanced.accesses readers room' _ _ read spells (Nat.le_refl _) (Nat.le_refl _))
  all_goals exact infixed (Nat.le_of_succ_le_succ room)

/-- The readers agree at every depth that is great enough for what is left to read. -/
theorem readers_follow : ∀ depth depth' : Nat, ReadersFollow c depth' (exprWithin depth) (exprWithin depth')
  | 0, depth', level, s, t, abreast, room => .unexpected "more input"
  | depth + 1, depth', level, s, t, abreast, room => by
    cases depth' with
    | zero =>
      have positive : 1 ≤ level.rank := by
        cases level <;> decide
      omega
    | succ depth' => exact abreast.levelRule (readers_follow depth depth') level room

/-- The second reading finds the same condition as the first. -/
theorem Abreast.condition (abreast : Abreast c s t) :
    Follows Grammar.condition Grammar.condition s t (ReadExpr c s t) := by
  unfold Grammar.condition
  refine .step rfl rfl (readers_follow _ _ .disjunction abreast ?_)
  show 15 * t.source.rest.length + 14 ≤ (14 + 1) * (t.source.rest.length + 1)
  omega

end YaraRules.Grammar
