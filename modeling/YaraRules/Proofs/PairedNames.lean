import YaraRules.Proofs.Spelling

/-! Names in conditions, read side by side. Both readings resolve a name in the same way, and
what it is resolved to has the same name. -/

namespace YaraRules

private theorem Literal.asInt?_redirect (f : Handle → Handle) (l : Literal) : (l.redirect f).asInt? = l.asInt? := by
  obtain ⟨value, formatted, escaped⟩ := l
  cases value <;> rfl

private theorem Literal.asSymbol?_redirect (f : Handle → Handle) (l : Literal) :
    (l.redirect f).asSymbol? = l.asSymbol? := by
  obtain ⟨value, formatted, escaped⟩ := l
  cases value <;> rfl

namespace Grammar

variable {c : Pairing} {s t s' t' : State} {α β : Type} {post : α → β → State → State → Prop}

/-- Operands of the same type pass the same checks. -/
theorem Follows.checkOperand {operator operator' : Handle} {operand operand' : Expr}
    {expected : OperandClass} {side : Side}
    (same : operand'.type = operand.type) {f : Unit → Parse α} {g : Unit → Parse β}
    (next : Follows (f ()) (g ()) s t post) :
    Follows (Grammar.checkOperand operator operand expected side >>= f)
      (Grammar.checkOperand operator' operand' expected side >>= g) s t post := by
  unfold Grammar.checkOperand
  rw [same]
  by_cases accepted : expected.accepts operand.type = true
  · rw [if_pos accepted, if_pos accepted]
    exact next
  · rw [if_neg accepted, if_neg accepted]
    exact .of_fails ⟨_, rfl⟩

/-- A check that only the first reading makes. -/
theorem Follows.checkOperand_first {operator : Handle} {operand : Expr} {expected : OperandClass} {side : Side}
    {f : Unit → Parse α} {q : Parse β} (next : Follows (f ()) q s t post) :
    Follows (Grammar.checkOperand operator operand expected side >>= f) q s t post := by
  unfold Grammar.checkOperand
  split_ifs
  · exact next
  · exact .of_fails ⟨_, rfl⟩

theorem Follows.checkAll {operator operator' : Handle} {expected : OperandClass} {side : Side} {f : Unit → Parse α}
    {g : Unit → Parse β} (next : Follows (f ()) (g ()) s t post) (rename : Handle → Handle) (operands : List Expr) :
    Follows ((operands.forM fun e => Grammar.checkOperand operator e expected side) >>= f)
      (((operands.map (·.mapHandles rename)).forM fun e =>
      Grammar.checkOperand operator' e expected side) >>= g) s t post := by
  induction operands with
  | nil => exact next
  | cons e rest later =>
    show Follows ((Grammar.checkOperand operator e expected side >>= fun _ =>
        rest.forM fun e => Grammar.checkOperand operator e expected side) >>= f)
      ((Grammar.checkOperand operator' (e.mapHandles rename) expected side >>= fun _ =>
        (rest.map (·.mapHandles rename)).forM fun e => Grammar.checkOperand operator' e expected side) >>= g) s t post
    rw [bind_assoc, bind_assoc]
    exact .checkOperand (e.type_mapHandles rename) later

theorem Follows.binary {op : BinaryOp} {left left' right right' : Expr} {token token' : Handle}
    (one : left'.type = left.type) (two : right'.type = right.type) {f g : Expr → Parse α}
    {post : α → α → State → State → Prop}
    (next : ∀ type, Follows (f (.binary type op left token right)) (g (.binary type op left' token' right')) s t post) :
    Follows (Grammar.binary op left token right >>= f) (Grammar.binary op left' token' right' >>= g) s t post := by
  unfold Grammar.binary
  rw [one, two]
  simp only [bind_assoc, pure_bind]
  exact .checkOperand one (.checkOperand two (next _))

theorem Follows.unary {op : UnaryOp} {operand operand' : Expr} {token token' : Handle}
    (same : operand'.type = operand.type) {post : Expr → Expr → State → State → Prop}
    (holds : ∀ type, post (.unary type op token operand) (.unary type op token' operand') s t) : Follows
    (Grammar.unary op token operand) (Grammar.unary op token' operand') s t post := by
  unfold Grammar.unary
  rw [same]
  cases op.operand? with
  | none => exact .pure (holds _)
  | some expected => exact .checkOperand same (.pure (holds _))

/-- Both readings see the same number in a token. -/
theorem Twins.integerIn? {x y : TokenStream} (twins : Twins c x y) {e : Expr} (paired : ∀ h ∈ e.handles, c.paired h) :
    Grammar.integerIn? y (e.mapHandles c.partner) = Grammar.integerIn? x e := by
  cases e with
  | atom type kind token =>
    cases kind with
    | integer =>
      have related := twins.tokens token (paired token (by simp [Expr.handles]))
      simp only [Expr.mapHandles, Grammar.integerIn?]
      revert related
      cases x.get? token <;> cases y.get? (c.partner token) <;> intro related <;> cases related
      · rfl
      · rename_i alike
        simp [alike.2, Literal.asInt?_redirect]
    | _ => rfl
  | _ => rfl

/-- Both readings see the same symbol behind an expression. -/
theorem Twins.symbolIn? {x y : TokenStream} (twins : Twins c x y) : ∀ {e : Expr}, (∀ h ∈ e.handles, c.paired h) →
    Grammar.symbolIn? y (e.mapHandles c.partner) = Grammar.symbolIn? x e := by
  have token : ∀ h, c.paired h → (y.get? (c.partner h)).bind (·.literal.asSymbol?) =
      (x.get? h).bind (·.literal.asSymbol?) := by
    intro h paired
    have related := twins.tokens h paired
    revert related
    cases x.get? h <;> cases y.get? (c.partner h) <;> intro related <;> cases related
    · rfl
    · rename_i alike
      simp [alike.2, Literal.asSymbol?_redirect]
  intro e
  induction e using Expr.by_children with
  | step e below =>
    intro paired
    cases e with
    | atom type kind h =>
      cases kind with
      | name => exact token h (paired h (by simp [Expr.handles]))
      | _ => rfl
    | field type structure_ dot member => exact token member (paired member (by simp [Expr.handles]))
    | index type array opening i closing =>
      have inner := below array (by simp [Expr.children]) fun h inside => paired h (by simp [Expr.handles, inside])
      simp only [Expr.mapHandles, Grammar.symbolIn?, inner]
    | _ => rfl

theorem Abreast.symbolOf (abreast : Abreast c s t) {e : Expr} (paired : ∀ h ∈ e.handles, c.paired h)
    {f : Option Symbol → Parse α} {g : Option Symbol → Parse β}
    (next : Follows (f (symbolIn? s.source.tokens e)) (g (symbolIn? s.source.tokens e)) s t post) :
    Follows (symbolOf? e >>= f) (symbolOf? (e.mapHandles c.partner) >>= g) s t post := by
  refine .step (a := symbolIn? s.source.tokens e) (b := symbolIn? s.source.tokens e) rfl ?_ next
  rw [← abreast.tokens.symbolIn? paired]
  rfl

/-! ### Names -/

private theorem name_of_variable {scopes : List SymbolTable} {name : String} {symbol : Symbol}
    (found : variable_? scopes name = some symbol) : symbol.name = name := by
  obtain ⟨table, -, found⟩ := List.exists_of_findSome?_eq_some found
  simpa using List.find?_some found

theorem Abreast.global? (abreast : Abreast c s t) (name : String) :
    Grammar.global? t name = Grammar.global? s name := by
  unfold Grammar.global?
  rw [abreast.settings, abreast.imports]

private theorem Abreast.name_of_global (abreast : Abreast c s t) {name : String} {symbol : Symbol}
    (found : Grammar.global? s name = some symbol) : symbol.name = name := by
  unfold Grammar.global? at found
  split at found
  · rename_i i imported
    cases found
    rw [abreast.modules i (List.mem_of_find?_eq_some imported)]
    have same := List.find?_some imported
    exact beq_iff_eq.mp same
  · split_ifs at found
    simpa using List.find?_some found

/-- A name that was resolved is written by the name of its symbol. -/
theorem Abreast.setSymbol (abreast : Abreast c s t) {h : Handle} {a : Token} (paired : c.paired h)
    (found : s.source.tokens.get? h = some a) (read : h ∉ s.source.rest) (kind : a.kind = .symbolName)
    {symbol : Symbol} (named : symbol.name = c.word h) {f : Unit → Parse α} {g : Unit → Parse β}
    (next : ∀ s' t', Touched c s t s' t' [h] → Follows (f ()) (g ()) s' t' post) :
    Follows (Grammar.setLiteral h (.ofSymbol symbol) >>= f) (Grammar.setLiteral (c.partner h) (.ofSymbol symbol) >>= g)
      s t post := by
  refine abreast.setLiteral paired found read (by rw [kind]; rfl) rfl ?_ ?_ next
  · exact (textOf_bare _ (a := { a with literal := .ofSymbol symbol }) rfl (by simp [kind, isBare])).trans named
  · intro k target
    cases target

private theorem bare_of_anchor {kind : TokenKind} (anchor : isAnchor kind = true) : isBare kind = true := by
  revert anchor
  cases kind <;> decide

private theorem Abreast.setAlias (abreast : Abreast c s t) {h target : Handle} {a : Token} (paired : c.paired h)
    (found : s.source.tokens.get? h = some a) (read : h ∉ s.source.rest) (free : isAnchor a.kind = false)
    (shared : c.Shares target) (anchored : Anchored s.source.tokens target)
    (written : TokenStream.writtenAs a.kind (c.word target) = c.word h) {f : Unit → Parse α} {g : Unit → Parse β}
    (next : ∀ s' t', Touched c s t s' t' [h] → Follows (f ()) (g ()) s' t' post) :
    Follows (Grammar.setLiteral h (s.source.tokens.aliasOf target) >>= f)
      (Grammar.setLiteral (c.partner h) (t.source.tokens.aliasOf target) >>= g) s t post := by
  obtain ⟨known, same⟩ := shared
  obtain ⟨b, inside, anchor, plain⟩ := anchored
  obtain ⟨b', inside', -, literal⟩ := abreast.tokens.get? known inside
  have plain' : TokenStream.Plain b' := by
    rw [TokenStream.Plain, literal, Literal.redirect_plain plain]
    exact plain
  rw [same] at inside'
  rw [TokenStream.aliasOf_plain _ inside plain, TokenStream.aliasOf_plain _ inside' plain']
  refine abreast.setLiteral paired found read free ?_ ?_ ?_ next
  · exact congrArg Literal.ofAlias same.symm
  · have word := abreast.tokens.words target b known inside
    rw [textOf_bare _ plain (bare_of_anchor anchor)] at word
    rw [← written, ← word]
    exact TokenStream.textOf_alias _ rfl inside plain
  · intro k target
    cases target
    exact ⟨known, b, inside, anchor, plain⟩

/-- What a name gives: it stands for something of the same type on both sides. -/
def Named (c : Pairing) (s t : State) (token : Handle) (e e' : Expr) (s' t' : State) : Prop :=
  Touched c s t s' t' [token] ∧ ∃ type, e = .atom type .name token ∧ e' = .atom type .name (c.partner token)

theorem Abreast.name (abreast : Abreast c s t) {token : Handle} (held : Held c s token)
    (kind : (c.lexed token).kind = .identifier) :
    Follows (Grammar.name token) (Grammar.name (c.partner token)) s t (Named c s t token) := by
  unfold Grammar.name
  refine abreast.textOf held.paired held.found ?_
  refine abreast.refine held (by rw [kind]; rfl) rfl fun s₁ t₁ touched found => ?_
  have read : token ∉ s₁.source.rest := touched.rest ▸ held.read
  refine .step rfl rfl ?_
  rw [touched.abreast.scopes, touched.abreast.ruleNames, touched.abreast.global?]
  cases inScope : variable_? s₁.scopes (c.word token) with
  | some symbol =>
    refine touched.abreast.setSymbol held.paired found read rfl (name_of_variable inScope) fun s₂ t₂ changed => ?_
    exact .pure ⟨touched.trans changed, _, rfl, rfl⟩
  | none =>
    cases ruled : s₁.ruleNames.lookup (c.word token) with
    | some target =>
      obtain ⟨before, after, split, -⟩ := List.lookup_eq_some_iff.mp ruled
      obtain ⟨⟨known, same⟩, anchors⟩ := touched.abreast.named (c.word token, target) (by simp [split])
      dsimp only at known same anchors ⊢
      cases inside : s₁.source.tokens.get? target with
      | none =>
        have missing := touched.abreast.tokens.get?_none known inside
        rw [same] at missing
        rw [missing]
        exact .pure ⟨touched, _, rfl, rfl⟩
      | some b =>
        obtain ⟨b', inside', -⟩ := touched.abreast.tokens.get? known inside
        obtain ⟨anchored, word⟩ := anchors b inside
        rw [same] at inside'
        rw [inside']
        refine touched.abreast.setAlias held.paired found read rfl ⟨known, same⟩ anchored word fun s₂ t₂ changed => ?_
        exact .pure ⟨touched.trans changed, _, rfl, rfl⟩
    | none =>
      cases imported : Grammar.global? s₁ (c.word token) with
      | some symbol =>
        refine touched.abreast.setSymbol held.paired found read rfl (touched.abreast.name_of_global imported)
          fun s₂ t₂ changed => ?_
        exact .pure ⟨touched.trans changed, _, rfl, rfl⟩
      | none => exact .fail token _

/-! ### Strings -/

/-- Kinds of tokens that refer to a string. -/
def isReference : TokenKind → Bool
  | .stringName | .stringCount | .stringOffset | .stringLength => true
  | _ => false

/-- The name of the string that a reference with the given text is for. -/
def referred (text : String) : String := "$" ++ String.ofList (text.toList.drop 1)

private theorem toList_withSigil (sigil : Char) (text : String) :
    (TokenStream.withSigil sigil text).toList = sigil :: text.toList.drop 1 := by
  simp [TokenStream.withSigil]

private theorem withSigil_referred (sigil : Char) (text : String) :
    TokenStream.withSigil sigil (referred (TokenStream.withSigil sigil text)) = TokenStream.withSigil sigil text := by
  apply String.toList_injective
  simp [toList_withSigil, referred]

private theorem Held.word_of_referred {token : Handle} (held : Held c s token) (abreast : Abreast c s t)
    (kind : isReference (c.lexed token).kind = true) :
    TokenStream.writtenAs (c.lexed token).kind (referred (c.word token)) = c.word token := by
  rw [← abreast.tokens.words token _ held.paired held.found, TokenStream.textOf_plain _ held.fresh.plain]
  have sigil := held.fresh.sigil
  revert kind sigil
  cases (c.lexed token).kind <;> intro kind sigil <;> cases kind
  · have starts := sigil rfl
    apply String.toList_injective
    simp only [TokenStream.writtenAs, referred, String.toList_append, String.toList_ofList]
    cases text : (c.lexed token).literal.text.toList with
    | nil => simp [text] at starts
    | cons first rest =>
      simp only [text, List.head?_cons, Option.some.injEq] at starts
      simp [starts]
  · exact withSigil_referred '#' _
  · exact withSigil_referred '@' _
  · exact withSigil_referred '!' _

theorem Abreast.stringReference (abreast : Abreast c s t) {token : Handle} (held : Held c s token)
    (kind : isReference (c.lexed token).kind = true) {f : Unit → Parse α} {g : Unit → Parse β}
    (next : ∀ s' t', Touched c s t s' t' [token] → Follows (f ()) (g ()) s' t' post) :
    Follows (Grammar.stringReference token >>= f) (Grammar.stringReference (c.partner token) >>= g) s t post := by
  unfold Grammar.stringReference
  simp only [bind_assoc]
  refine abreast.textOf held.paired held.found ?_
  refine .step rfl rfl ?_
  rw [show "$" ++ String.ofList ((c.word token).toList.drop 1) = referred (c.word token) from rfl, abreast.stringLoops,
    abreast.strings]
  by_cases anonymous : (referred (c.word token) == "$") = true
  · simp only [anonymous, if_true]
    by_cases outside : (s.stringLoops == 0) = true
    · simp only [outside, if_true]
      exact .fail_bind token _
    · simp only [outside]
      exact next s t (.refl abreast _)
  · simp only [anonymous]
    cases found : s.strings.get? (referred (c.word token)) with
    | none => exact .fail_bind token _
    | some string =>
      obtain ⟨known, anchored, word⟩ := abreast.defined _ string found
      refine abreast.setAlias held.paired held.found held.read held.fresh.free known anchored ?_ next
      rw [word]
      exact held.word_of_referred abreast kind

end Grammar

end YaraRules
