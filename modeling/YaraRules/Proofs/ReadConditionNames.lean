import YaraRules.Proofs.ReadNames

/-! Names in conditions. A name that stands for a rule becomes an alias of the rule's own
name if it sees that one, and stays a text if not; a string becomes an alias of its
definition. The tokens of all other words have no part in naming things. -/

namespace YaraRules

theorem zip_sublist {α β : Type} (xs : List α) (ys : List β) : ((xs.zip ys).map (·.1)).Sublist xs := by
  induction xs generalizing ys with
  | nil => exact .slnil
  | cons x rest ih =>
    cases ys with
    | nil => exact List.nil_sublist _
    | cons y more => exact (ih more).cons_cons x

theorem NameTrie.mem_values_of_get? {α : Type} {t : NameTrie α} {name : String} {value : α}
    (found : t.get? name = some value) : value ∈ t.values := by
  obtain ⟨place, _, held⟩ := Option.bind_eq_some_iff.mp found
  obtain ⟨entry, stored, rfl⟩ := Option.map_eq_some_iff.mp held
  have member : some entry ∈ t.items.toList :=
    Array.mem_toList_iff.mpr (Array.mem_of_getElem? (Option.join_eq_some_iff.mp stored))
  exact List.mem_map.mpr ⟨entry, List.mem_filterMap.mpr ⟨some entry, member, rfl⟩, rfl⟩

open TokenStream (Plain ButFor Sees)

theorem TokenStream.Sound.butFor_self {s : TokenStream} (sound : s.Sound) (h : Handle) : ButFor h s s :=
  ⟨sound, rfl, rfl, fun _ _ => rfl, fun _ _ => .rfl⟩

namespace Grammar

variable {l : Ledger}

/-- A token that was read gets a part in a condition. -/
theorem Linking.use {roles : List Role} {spare : List Handle} {s : State} {h : Handle}
    (link : Linking l roles (h :: spare) s) {tokens : TokenStream} (change : ButFor h s.source.tokens tokens)
    {a : Token} (stored : tokens.get? h = some a) {role : Role} (own : role.token = h)
    (suits : role.Suits l.rules tokens a) (aliased : ∀ target, a.literal.aliasTarget? = some target →
    Role.Leads (roles ++ [role]) h target) : Linking l (roles ++ [role]) spare (s.onTokens fun _ => tokens) := by
  refine link.change change [role] (fun other member => ?_) fun b target found points => ?_
  · obtain rfl := List.mem_singleton.mp member
    exact ⟨own, a, stored, suits⟩
  · obtain rfl : a = b := Option.some.inj (stored.symm.trans found)
    exact aliased target points

private theorem checkOperand_links (operator : Handle) (operand : Expr) (expected : OperandClass) (side : Side) :
    Quiet l (checkOperand operator operand expected side) :=
  .ite (fun _ => .pure fun _ => .rfl) fun _ => .skip (textOf_links operator) fun _ => .never (never_fail _ _)

private theorem symbolOf_links (e : Expr) : Quiet l (symbolOf? e) := .skip tokens_links fun _ => .pure fun _ => .rfl

private theorem pure_links {spare : List Handle} {before : List Role} {e : Expr}
    (same : (e.use? l.ids).toList ++ e.children.flatMap (Expr.uses l.ids) = before) :
    Links l spare before (pure e : Parse Expr) l.uses :=
  .pure fun role => by rw [Ledger.uses, Expr.uses_eq, same]

private theorem binary_links (op : BinaryOp) (left : Expr) (token : Handle) (right : Expr) :
    Links l [] (l.uses left ++ l.uses right) (binary op left token right) l.uses := by
  refine .skip (checkOperand_links token left _ _) fun _ => .skip (checkOperand_links token right _ _) fun _ => ?_
  exact pure_links (by simp [Expr.children, Expr.use?, Expr.stringToken?])

private theorem unary_links (op : UnaryOp) (token : Handle) (operand : Expr) :
    Links l [] (l.uses operand) (unary op token operand) l.uses := by
  have done : Links l [] (l.uses operand) (pure
      (Expr.unary (op.result operand.type) op token operand) : Parse Expr) l.uses :=
    pure_links (by simp [Expr.children, Expr.use?, Expr.stringToken?])
  unfold unary
  split
  · exact .skip (checkOperand_links token operand _ _) fun _ => done
  · exact done

/-! ### Names and strings -/

/-- The token is of a kind and holds a text. -/
def Worded (kind : TokenKind) (h : Handle) (text : String) (s : State) : Prop :=
  ∃ a, s.source.tokens.get? h = some a ∧ a.kind = kind ∧ Plain a ∧ a.literal.text = text

section

variable {roles : List Role} {spare : List Handle} {h target : Handle} {text : String}

private theorem pure_name {type : ValueType} :
    Ensures (Linking l (roles ++ [.nameUse h]) spare) (pure (.atom type .name h) : Parse Expr) fun e =>
      Linking l (roles ++ l.uses e) spare := by
  refine .pure fun s link => ?_
  rwa [Ledger.uses, Expr.uses_eq]

/-- A name that stands for a loop variable, a module or a global holds the symbol. -/
theorem symbol_ensures (type : ValueType) (symbol : Symbol) :
    Ensures (fun s => Linking l roles (h :: spare) s ∧ Worded .symbolName h text s)
      (do setLiteral h (.ofSymbol symbol); return .atom type .name h : Parse Expr) fun e =>
        Linking l (roles ++ l.uses e) spare := by
  refine .bind (m := fun _ => Linking l (roles ++ [.nameUse h]) spare) (.modify ?_) fun _ => pure_name
  rintro s ⟨link, a, stored, kind, _⟩
  refine link.use (link.sound.modify_butFor h _) (a := { a with literal := .ofSymbol symbol }) ?_ rfl
    ⟨kind, .inl rfl⟩ nofun
  rw [TokenStream.get?_modify, if_pos rfl, stored]
  rfl

theorem Linking.listed {s : State} (link : Linking l roles spare s) (found : s.ruleNames.lookup text = some target) :
    (text, target) ∈ l.rules := by
  obtain ⟨_, _, split, _⟩ := List.lookup_eq_some_iff.mp (link.rules ▸ found)
  simp [split]

theorem Linking.fresh {s : State} (link : Linking l roles spare s)
    (free : ¬(s.ruleNames.lookup text).isSome) : text ∉ l.rules.map (·.1) := by
  intro member
  obtain ⟨rule, listed, rfl⟩ := List.mem_map.mp member
  rw [link.rules, Option.not_isSome_iff_eq_none, List.lookup_eq_none_iff] at free
  simpa using free rule listed

/-- The name of a rule that is in the source is the one that the rule has. -/
theorem Linking.rule_live {s : State} (link : Linking l roles spare s) (found : s.ruleNames.lookup text = some target)
    (inside : target.chain ∈ s.source.tokens.ids) :
    .ruleName target text ∈ roles ∧ ∃ b, s.source.tokens.get? target = some b ∧ Plain b := by
  rcases link.named _ (link.listed found) with old | named
  · exact absurd (link.older _ old) (Nat.not_lt.mpr (link.ids _ inside).1)
  · obtain ⟨_, b, stored, _, plain, _⟩ := link.placed _ named
    exact ⟨named, b, stored, plain⟩

/-- A name that stands for a rule follows the name of the rule if it sees that one. -/
theorem rule_ensures {st : State} (found : st.ruleNames.lookup text = some target) :
    Ensures (fun s => st = s ∧ Linking l roles (h :: spare) s ∧ Worded .symbolName h text s) (do
        if (st.source.tokens.get? target).isSome then
          setLiteral h (st.source.tokens.aliasOf target)
        return .atom .boolean .name h : Parse Expr) fun e => Linking l (roles ++ l.uses e) spare := by
  refine .ite (fun live => ?_) fun dead => ?_
  · refine .bind (m := fun _ => Linking l (roles ++ [.nameUse h]) spare) (.modify ?_) fun _ => pure_name
    rintro s ⟨rfl, link, a, stored, kind, _⟩
    obtain ⟨b, held⟩ := Option.isSome_iff_exists.mp live
    have inside := TokenStream.mem_ids_of_get? held
    obtain ⟨named, b, held, plain⟩ := link.rule_live found inside
    rw [TokenStream.aliasOf_plain _ held plain]
    have change := link.sound.modify_butFor h fun token => { token with literal := .ofAlias target }
    have sees : st.source.tokens.Sees h target :=
      ⟨_, TokenStream.owner?_top (link.loose h (by simp)).own, inside⟩
    refine link.use change (a := { a with literal := .ofAlias target }) ?_ rfl
      ⟨kind, .inr ⟨(text, target), link.listed found, .inl ⟨rfl, (change.sees _ _).mpr sees⟩⟩⟩ ?_
    · rw [TokenStream.get?_modify, if_pos rfl, stored]
      rfl
    · rintro _ ⟨⟩
      exact .inl ⟨by simp, text, by simp [named]⟩
  · refine .consider (Linking l (roles ++ [.nameUse h]) spare) ?_ pure_name
    rintro s ⟨rfl, link, a, stored, kind, plain, word⟩
    refine link.use (link.sound.butFor_self h) stored rfl
      ⟨kind, .inr ⟨(text, target), link.listed found, .inr ⟨plain, word, fun sees => dead ?_⟩⟩⟩ fun _ points => ?_
    · obtain ⟨_, b, held, _⟩ := link.rule_live found sees.mem_ids
      rw [held]
      rfl
    · cases (show a.literal.aliasTarget? = none from plain).symm.trans points

private theorem name_ensures : Ensures (fun s => Linking l roles (h :: spare) s ∧ ∃ a, s.source.tokens.get? h = some a ∧
    a.kind = .identifier) (name h) fun e => Linking l (roles ++ l.uses e) spare := by
  unfold name
  refine .bind (m := fun text s => Linking l roles (h :: spare) s ∧ ∃ a, s.source.tokens.get? h = some a ∧ Plain a ∧
    a.literal.text = text) ?_ fun text => ?_
  · rintro s text s' ⟨⟩ ⟨link, a, stored, kind⟩
    obtain ⟨b, held, plain⟩ := (link.loose h (by simp)).plain
    obtain rfl : a = b := Option.some.inj (stored.symm.trans held)
    refine ⟨link, a, stored, plain, ?_⟩
    rw [TokenStream.text_eq _ stored, TokenStream.textOf_plain _ plain, kind]
    rfl
  refine .bind (m := fun _ s => Linking l roles (h :: spare) s ∧ Worded .symbolName h text s) (.modify ?_) fun _ => ?_
  · rintro s ⟨link, a, stored, plain, word⟩
    have now : (s.source.tokens.setKind h .symbolName).get? h = some { a with kind := .symbolName } := by
      rw [TokenStream.setKind, TokenStream.get?_modify, if_pos rfl, stored]
      rfl
    exact ⟨link.hold (link.sound.modify_butFor h _) ⟨_, now, plain⟩, _, now, rfl, plain, word⟩
  refine .bind .get fun st => ?_
  have forget : ∀ s, st = s ∧ Linking l roles (h :: spare) s ∧ Worded .symbolName h text s →
      Linking l roles (h :: spare) s ∧ Worded .symbolName h text s :=
    fun s known => known.2
  split
  · exact .consider _ forget (symbol_ensures _ _)
  · split
    next found => exact rule_ensures found
    next =>
      split
      · exact .consider _ forget (symbol_ensures _ _)
      · exact .never (never_fail _ _)

end

/-- The next token is of a kind. -/
def Next (kind : TokenKind) (s : State) : Prop := (s.source.rest[0]?.bind s.source.tokens.get?).map (·.kind) = some kind

theorem seen_ensures {roles : List Role} {spare : List Handle} {kind : TokenKind} :
    Ensures (fun s => Linking l roles spare s ∧ Next kind s) advance fun h s =>
      Linking l roles (h :: spare) s ∧ ∃ a, s.source.tokens.get? h = some a ∧ a.kind = kind := by
  rintro s h s' done ⟨link, next⟩
  refine ⟨advance_ensures s h s' done link, ?_⟩
  obtain ⟨rest, read, rfl⟩ := advance_done done
  simpa [Next, read] using next

private theorem expect_next {roles : List Role} {spare : List Handle} (kind : TokenKind) :
    Ensures (Linking l roles spare) (expect kind) fun h s => Linking l roles (h :: spare) s ∧
    ∃ a, s.source.tokens.get? h = some a ∧ a.kind = kind := by
  refine .look (fun _ => rfl) fun next => .ite (fun same => ?_) fun _ => .never (never_unexpected _)
  exact .consider _ (fun s known => ⟨known.2, known.1.trans (by simpa using same)⟩) seen_ensures

/-- A string follows its definition; one that is bare stands for the string of a loop. -/
theorem stringReference_ensures {roles : List Role} {others : List Handle} {h : Handle} {kind : TokenKind}
    (refers : Refers kind) :
    Ensures (fun s => Linking l roles (h :: others) s ∧ ∃ a, s.source.tokens.get? h = some a ∧ a.kind = kind)
    (stringReference h) fun _ =>
      Linking l (roles ++ [.stringUse h l.ids]) others := by
  refine .look (fun _ => rfl) fun text => .bind .get fun st => .ite (fun bare => ?_) fun _ => ?_
  · refine .ite (fun _ => .never (never_fail _ _)) fun _ => .pure ?_
    rintro s ⟨rfl, word, link, a, stored, rfl⟩
    obtain ⟨b, held, plain⟩ := (link.loose h (by simp)).plain
    obtain rfl := Option.some.inj (stored.symm.trans held)
    have tail : text.toList.drop 1 = [] := by simpa [← String.toList_inj] using bare
    have written : TokenStream.writtenAs a.kind a.literal.text = text := by
      rw [← word, TokenStream.text_eq _ stored, TokenStream.textOf_plain _ plain]
    refine link.use (link.sound.butFor_self h) stored rfl ⟨refers, .inr ⟨plain, written ▸ tail⟩⟩ fun target points => ?_
    cases (show a.literal.aliasTarget? = none from plain).symm.trans points
  split
  next string found =>
    refine .modify ?_
    rintro s ⟨rfl, _, link, a, stored, rfl⟩
    have member : string ∈ l.strings.values := NameTrie.mem_values_of_get? (link.strings ▸ found)
    obtain ⟨_, b, held, _, plain⟩ := link.placed _ (link.known string member)
    have held : st.source.tokens.get? string.id = some b := held
    have plainly : st.source.tokens.aliasOf string.id = .ofAlias string.id := TokenStream.aliasOf_plain _ held plain
    rw [plainly]
    refine link.use (link.sound.modify_butFor h _) (a := { a with literal := .ofAlias string.id }) ?_ rfl
      ⟨refers, .inl ⟨string.id, List.mem_map_of_mem member, rfl⟩⟩ ?_
    · rw [TokenStream.get?_modify, if_pos rfl, stored]
      rfl
    · rintro _ ⟨⟩
      exact .inr ⟨⟨l.ids, by simp⟩, by simp [link.known string member]⟩
  next => exact .never (never_fail _ _)

private theorem Links.refer {β : Type} {kind : TokenKind} (refers : Refers kind) {next : Handle → Unit → Parse β}
    {last : β → List Role} (rest : ∀ h, Links l [] [.stringUse h l.ids] (next h ⟨⟩) last) : Links l [] []
    (Grammar.expect kind >>= fun h => stringReference h >>= next h) last := by
  intro others roles
  refine .bind (.consider _ (fun s link => by simpa using link) (expect_next kind)) fun h => ?_
  exact .bind (stringReference_ensures refers) fun _ => rest h others roles

/-! ### Ranges, sets and parentheses -/

private theorem rangeOf_links (opening : Handle) (low : Expr) (dots : Handle) (high : Expr) (closing : Handle) :
    Links l [] (l.uses low ++ l.uses high) (rangeOf opening low dots high closing) l.uses := by
  refine .skip (checkOperand_links dots low _ _) fun _ => .skip (checkOperand_links dots high _ _) fun _ => ?_
  refine .skip tokens_links fun tokens => ?_
  have last : Links l [] (l.uses low ++ l.uses high)
    (pure (Expr.range .integer opening low dots high closing) : Parse Expr)
      l.uses := pure_links (by simp [Expr.children, Expr.use?, Expr.stringToken?])
  dsimp only
  split
  · exact .guard (never_fail _ _) last
  · exact last

theorem still_ensures {α : Type} {holds : State → Prop} {step : Parse α}
    (same : ∀ s a s', step s = .ok (a, s') → s' = s) : Ensures holds step fun _ => holds :=
  fun s a s' done before => same s a s' done ▸ before

/-- What is read of a term depends on the kind of the next token. -/
theorem Links.seen {next : Option TokenKind → Parse Expr}
    (each : ∀ kind others roles, Ensures (fun s => Linking l roles others s ∧ ∀ k, kind = some k →
    Next k s) (next kind) fun e =>
      Linking l (roles ++ l.uses e) others) : Links l [] [] (peek? >>= next) l.uses := by
  intro others roles
  refine .bind (m := fun kind s => Linking l roles others s ∧ ∀ k, kind = some k → Next k s) ?_ fun kind =>
    each kind others roles
  rintro s kind s' ⟨⟩ link
  exact ⟨by simpa using link, fun k same => same⟩

/-- The kind of the next token does not matter. -/
theorem Links.unseen {step : Parse Expr} {others : List Handle} {roles : List Role} {kind : Option TokenKind}
    (links : Links l [] [] step l.uses) :
    Ensures (fun s => Linking l roles others s ∧ ∀ k, kind = some k → Next k s) step fun e =>
      Linking l (roles ++ l.uses e) others :=
  .consider _ (fun s known => by simpa using known.1) (links others roles)

private theorem setElement_links : Links l [] [] setElement l.uses := by
  refine .seen fun kind others roles => ?_
  split
  · refine .bind (.consider _ (fun s known => ⟨known.1, known.2 _ rfl⟩) seen_ensures) fun token => ?_
    refine .bind (stringReference_ensures (by simp [Refers])) fun _ => .pure fun s link => ?_
    rwa [Ledger.uses, Expr.uses_eq]
  · refine Links.unseen (.skip advance_links fun token => .skip (textOf_links token) fun _ =>
      .skip get_links fun s => ?_)
    exact .guard (never_fail _ _) (pure_links rfl)
  · exact .bind (.consider _ (fun s known => ⟨known.1, known.2 _ rfl⟩) seen_ensures) fun token => name_ensures
  · exact .never (never_unexpected _)

private theorem stringSet_links : Links l [] [] stringSet l.uses := by
  refine .skip (accept_links _) fun them => ?_
  cases them with
  | some token =>
    exact .skip get_links fun s => .guard (never_fail _ _) (pure_links rfl)
  | none =>
    refine .skip (expect_links _) fun opening => .skip remaining_links fun bound => ?_
    refine .bind (separated_links setElement_links bound) fun elements => .skip (expect_links _) fun closing => ?_
    exact pure_links (by simp [Expr.children, Expr.use?, Expr.stringToken?])

private theorem percentage_links (operand : Expr) : Links l [] (l.uses operand) (percentage operand) l.uses := by
  refine .expect fun percent => .refine (.drop (.skip (checkOperand_links percent operand _ _) fun _ => ?_))
  exact pure_links (by simp [Expr.children, Expr.use?, Expr.stringToken?])

private theorem declareVariables_links : ∀ vars scope, Links l (vars.map (·.1)) []
    (declareVariables vars scope) fun _ => []
  | [], _ => .pure fun _ => .rfl
  | (token, symbol) :: rest, scope => by
    refine .skip (textOf_links token) fun text => .skip get_links fun s => .guard (never_fail _ _) ?_
    exact .refine (.setLiteral rfl (.drop (declareVariables_links rest _)))

section

variable {self : Readers} (readers : ∀ level, Links l [] [] (self level) l.uses)
include readers

private theorem range_links : Links l [] [] (range self) l.uses := by
  refine .skip (expect_links _) fun opening => .bind (readers _) fun low => .skip (expect_links _) fun dots => ?_
  exact .bind (readers _) fun high => .skip (expect_links _) fun closing => rangeOf_links opening low dots high closing

private theorem parenthesized_links : Links l [] [] (parenthesized self) l.uses := by
  refine .expect fun opening => .skip tokens_links fun tokens => .breakAfter (.drop (.bind (readers _) fun inner => ?_))
  exact .skip (expect_links _) fun closing => pure_links (by simp [Expr.children, Expr.use?, Expr.stringToken?])

/-! ### Quantifiers and loops -/

private theorem quantifier_links : Links l [] [] (quantifier self) l.uses := by
  refine .skip peek_links fun next => ?_
  split
  · exact .skip advance_links fun token => pure_links rfl
  · exact .skip advance_links fun token => pure_links rfl
  · exact .skip advance_links fun token => pure_links rfl
  · refine .bind (readers _) fun e => .skip peek_links fun next => .ite (fun _ => percentage_links e) fun _ => ?_
    refine .skip (peekHandle_links 0) fun next => ?_
    cases next with
    | some next => exact .skip (checkOperand_links next e _ _) fun _ => .pure fun _ => .rfl
    | none => exact .pure fun _ => .rfl

private theorem ofRest_links (quantifier : Expr) : Links l [] (l.uses quantifier) (ofRest self quantifier) l.uses := by
  refine .skip (expect_links _) fun of_ => .bind stringSet_links fun members => .skip peek_links fun next => ?_
  split
  · refine .skip advance_links fun keyword => .bind (readers _) fun anchor => ?_
    refine .skip (checkOperand_links keyword anchor _ _) fun _ => pure_links ?_
    simp [Expr.children, Expr.use?, Expr.stringToken?]
  · refine .skip advance_links fun keyword => .bind (range_links readers) fun anchor => pure_links ?_
    simp [Expr.children, Expr.use?, Expr.stringToken?]
  · exact pure_links (by simp [Expr.children, Expr.use?, Expr.stringToken?])

private theorem iterable_links : Links l [] [] (iterable self) l.uses := by
  refine .skip peek_links fun next => .ite (fun _ => ?_) fun _ => ?_
  · refine .skip advance_links fun opening => .bind (readers _) fun first => .skip (accept_links _) fun dots => ?_
    cases dots with
    | some dots =>
      refine .bind (readers _) fun high => .skip (expect_links _) fun closing => ?_
      exact rangeOf_links opening first dots high closing
    | none =>
      have rest (others : List Expr) : Links l [] (l.uses first ++ others.flatMap l.uses) (do
            let closing ← expect .closeParen
            let expected := if first.type == .string then OperandClass.string else .integer
            (first :: others).forM fun element => checkOperand opening element expected .right
            return .set first.type opening (first :: others) closing) l.uses := by
        refine .skip (expect_links _) fun closing => ?_
        refine .skip (.forM (fun element => checkOperand_links opening element _ _) _) fun _ => pure_links ?_
        simp [Expr.children, Expr.use?, Expr.stringToken?]
      refine .skip (accept_links _) fun comma => ?_
      cases comma with
      | none => simpa using rest []
      | some comma => exact .skip remaining_links fun bound => .bind (separated_links (readers _) bound) rest
  · refine .bind (readers _) fun e => .skip (symbolOf_links e) fun symbol =>
      .ite (fun _ => .pure fun _ => .rfl) fun _ => ?_
    exact .skip tokens_links fun _ => .never (never_fail _ _)

private theorem loopIn_links (for_ : Handle) (quantifier : Expr) :
    Links l [] (l.uses quantifier) (loopIn self for_ quantifier) l.uses := by
  refine .skip remaining_links fun bound => .words fun vars => ?_
  refine .skip (expect_links _) fun in_ => .bind (iterable_links readers) fun iterable => ?_
  refine .skip (.mapM textOf_links vars) fun names => .skip (symbolOf_links iterable) fun symbol => ?_
  obtain ⟨expected, symbols⟩ := loopVariables symbol iterable names
  refine .guard (never_fail _ _) (.fewer (zip_sublist vars symbols) ?_)
  refine .spendAll (declareVariables_links _ _) fun scope => .skip (expect_links _) fun colon =>
    .skip get_links fun s => ?_
  refine .skip (aside_links fun _ => ⟨rfl, rfl, rfl, rfl, rfl⟩)
    fun _ => .bind (parenthesized_links readers) fun body => ?_
  refine .skip (aside_links fun _ => ⟨rfl, rfl, rfl, rfl, rfl⟩) fun _ => pure_links ?_
  simp [Expr.children, Expr.use?, Expr.stringToken?]

private theorem loopOf_links (for_ : Handle) (quantifier : Expr) :
    Links l [] (l.uses quantifier) (loopOf self for_ quantifier) l.uses := by
  refine .skip (expect_links _) fun of_ => .bind stringSet_links fun members => .skip (expect_links _) fun colon => ?_
  refine .skip (aside_links fun _ => ⟨rfl, rfl, rfl, rfl, rfl⟩)
    fun _ => .bind (parenthesized_links readers) fun body => ?_
  refine .skip (aside_links fun _ => ⟨rfl, rfl, rfl, rfl, rfl⟩) fun _ => pure_links ?_
  simp [Expr.children, Expr.use?, Expr.stringToken?]

private theorem loop_links : Links l [] [] (loop self) l.uses := by
  refine .skip (expect_links _) fun for_ => .bind (quantifier_links readers) fun quantifier => ?_
  exact .skip peek_links fun _ => .ite (fun _ => loopOf_links readers for_ quantifier)
    fun _ => loopIn_links readers for_ quantifier

/-! ### Single terms -/

private theorem stringTerm_links : Links l [] [] (stringTerm self) l.uses := by
  refine .refer (by simp [Refers]) fun id => .skip peek_links fun next => ?_
  split
  · refine .skip advance_links fun at_ => .bind (readers _) fun offset => ?_
    exact .skip (checkOperand_links at_ offset _ _)
      fun _ => pure_links (by simp [Expr.children, Expr.use?, Expr.stringToken?])
  · refine .skip advance_links fun in_ => .bind (range_links readers) fun bounds => pure_links ?_
    simp [Expr.children, Expr.use?, Expr.stringToken?]
  · exact pure_links (by simp [Expr.children, Expr.use?, Expr.stringToken?])

private theorem countTerm_links : Links l [] [] (countTerm self) l.uses := by
  refine .refer (by simp [Refers]) fun id => .skip (accept_links _) fun in_ => ?_
  cases in_ with
  | some in_ =>
    exact .bind (range_links readers) fun bounds => pure_links (by simp [Expr.children, Expr.use?, Expr.stringToken?])
  | none => exact pure_links (by simp [Expr.children, Expr.use?, Expr.stringToken?])

private theorem indexedTerm_links (measured : Bool) : Links l [] [] (indexedTerm self measured) l.uses := by
  refine .refer (by cases measured <;> simp [Refers]) fun id => .skip (accept_links _) fun opening => ?_
  cases opening with
  | some opening =>
    refine .bind (readers _) fun index => .skip (checkOperand_links opening index _ _) fun _ => ?_
    exact .skip (expect_links _) fun closing => pure_links (by simp [Expr.children, Expr.use?, Expr.stringToken?])
  | none => exact pure_links (by cases measured <;> simp [Expr.children, Expr.use?, Expr.stringToken?])

private theorem integerFunction_links (function : Handle) :
    Links l [function] [] (integerFunction self function) l.uses := by
  refine .refine (.drop (.skip (expect_links _) fun opening => .bind (readers _) fun arg => ?_))
  refine .skip (checkOperand_links opening arg _ _) fun _ => .skip (expect_links _) fun closing => pure_links ?_
  simp [Expr.children, Expr.use?, Expr.stringToken?]

private theorem term_links : Links l [] [] (term self) l.uses := by
  refine .seen fun kind others roles => ?_
  split
  · exact Links.unseen (.skip advance_links fun token => pure_links rfl)
  · exact Links.unseen (.skip advance_links fun token => pure_links rfl)
  · exact Links.unseen (.skip advance_links fun token => pure_links rfl)
  · exact Links.unseen (.skip advance_links fun token => pure_links rfl)
  · exact Links.unseen (.skip advance_links fun token => pure_links rfl)
  · exact Links.unseen (.skip advance_links fun token => .skip (checkEscapes_links token) fun _ => pure_links rfl)
  · exact Links.unseen (.skip advance_links fun token => .skip (readRegexp_links token) fun _ => pure_links rfl)
  · exact Links.unseen (stringTerm_links readers)
  · exact Links.unseen (countTerm_links readers)
  · exact Links.unseen (indexedTerm_links readers false)
  · exact Links.unseen (indexedTerm_links readers true)
  · exact Links.unseen (parenthesized_links readers)
  · refine .bind (.consider _ (fun s known => ⟨known.1, known.2 _ rfl⟩) seen_ensures) fun token => ?_
    refine .bind (still_ensures fun _ _ _ done => by cases done; rfl) fun text => ?_
    refine .bind (still_ensures fun _ _ _ done => by cases done; rfl) fun next => .ite (fun _ => ?_)
      fun _ => name_ensures
    exact .consider _ (fun s known => by simpa using known.1) (integerFunction_links readers token others roles)
  · exact .never (never_unexpected _)

/-! ### Fields, elements and calls -/

omit readers in
private theorem fieldOf_links (structure_ : Expr) : Links l [] (l.uses structure_) (fieldOf structure_) l.uses := by
  refine .skip (expect_links _) fun dot => .expect fun member => .skip (symbolOf_links _) fun parent => ?_
  cases parent with
  | none => exact .skip tokens_links fun _ => .never (never_fail _ _)
  | some parent =>
    refine .ite (fun _ => ?_) fun _ => .skip tokens_links fun _ => .never (never_fail _ _)
    refine .skip (textOf_links member) fun text => ?_
    split
    · refine .refine (.setLiteral rfl (.drop (pure_links ?_)))
      simp [Expr.children, Expr.use?, Expr.stringToken?]
    · exact .never (never_fail _ _)

private theorem elementOf_links (array : Expr) : Links l [] (l.uses array) (elementOf self array) l.uses := by
  refine .skip (expect_links _) fun opening => .skip (symbolOf_links array) fun symbol => ?_
  have rest (expected : OperandClass) (container : String) :
      Links l [] (l.uses array) (elementEnd self array opening symbol expected container) l.uses := by
    unfold elementEnd
    refine .bind (readers _) fun index => .ite (fun _ => ?_) fun _ => ?_
    · exact .skip tokens_links fun tokens => .never (.bind (never_fail _ _) _)
    · exact .skip (expect_links _) fun closing => pure_links (by simp [Expr.children, Expr.use?, Expr.stringToken?])
  refine .ite (fun _ => rest .integer "an array") fun _ => .ite (fun _ => rest .string "a dictionary") fun _ => ?_
  exact .skip tokens_links fun _ => .never (.bind (never_fail _ _) _)

private theorem arguments_links : Links l [] [] (arguments self) fun args => args.flatMap l.uses := by
  refine .skip peek_links fun _ => .ite (fun _ => .pure fun _ => .rfl) fun _ => ?_
  exact .skip remaining_links fun bound => separated_links (readers _) bound

private theorem callOf_links (function : Expr) : Links l [] (l.uses function) (callOf self function) l.uses := by
  refine .skip (expect_links _) fun opening => .bind (arguments_links readers) fun args => ?_
  refine .skip (expect_links _) fun closing => .skip (symbolOf_links function) fun symbol => ?_
  dsimp only
  split
  · exact pure_links (by simp [Expr.children, Expr.use?, Expr.stringToken?])
  · exact .skip tokens_links fun _ => .never (never_fail _ _)

private theorem accesses_links : ∀ bound (e : Expr), Links l [] (l.uses e) (accesses self bound e) l.uses
  | 0, _ => .pure fun _ => .rfl
  | bound + 1, e => by
    refine .skip peek_links fun next => ?_
    split
    · exact .seq (fieldOf_links e) fun e => accesses_links bound e
    · exact .seq (elementOf_links readers e) fun e => accesses_links bound e
    · refine .skip (symbolOf_links e) fun symbol => .ite (fun _ => ?_) fun _ => .pure fun _ => .rfl
      exact .seq (callOf_links readers e) fun e => accesses_links bound e
    · exact .pure fun _ => .rfl

/-! ### Levels -/

omit readers in
private theorem operator_links (level : Level) : Quiet l (operator? level) := by
  refine .skip peek_links fun next => ?_
  split
  · refine .ite (fun _ => .pure fun _ => .rfl) fun _ => ?_
    exact .skip (peekAt_links 1) fun _ => .ite (fun _ => .pure fun _ => .rfl) fun _ => .pure fun _ => .rfl
  · exact .pure fun _ => .rfl

private theorem operations_links (level : Level) : ∀ bound left, Links l [] (l.uses left)
    (operations self level bound left) l.uses
  | 0, _ => .pure fun _ => .rfl
  | bound + 1, left => by
    refine .skip (operator_links level) fun op => ?_
    cases op with
    | none => exact .pure fun _ => .rfl
    | some op =>
      refine .skip advance_links fun token => .bind (readers _) fun right => ?_
      exact .seq (binary_links op left token right) fun e => operations_links level bound e

private theorem negation_links : Links l [] [] (negation self) l.uses := by
  refine .skip peek_links fun next => ?_
  split
  · exact .skip advance_links fun token => .bind (readers _) fun operand => unary_links .not token operand
  · exact .skip advance_links fun token => .bind (readers _) fun operand => unary_links .defined token operand
  · exact readers _

private theorem quantified_links : Links l [] [] (quantified self) l.uses := by
  refine .skip peek_links fun next => .skip (peekAt_links 1) fun second => ?_
  refine .ite (fun _ => loop_links readers) fun _ => .ite (fun _ => ?_) fun _ => ?_
  · exact .bind (quantifier_links readers) fun quantifier => ofRest_links readers quantifier
  refine .bind (readers _) fun e => .skip peek_links fun next => .skip (peekAt_links 1) fun second => ?_
  refine .ite (fun _ => .seq (percentage_links e) fun e => ofRest_links readers e) fun _ => ?_
  refine .ite (fun _ => .skip (peekHandle_links 0) fun next => ?_) fun _ => .pure fun _ => .rfl
  cases next with
  | some of_ => exact .skip (checkOperand_links of_ e _ _) fun _ => ofRest_links readers e
  | none => exact ofRest_links readers e

private theorem signed_links : Links l [] [] (signed self) l.uses := by
  refine .skip peek_links fun next => ?_
  split
  · exact .advance fun token => .refine (.drop (.bind (readers _) fun operand => unary_links .minus token operand))
  · exact .skip advance_links fun token => .bind (readers _) fun operand => unary_links .bitNot token operand
  · exact readers _

private theorem levelRule_links (level : Level) : Links l [] [] (levelRule self level) l.uses := by
  unfold levelRule
  split
  · exact negation_links readers
  · exact quantified_links readers
  · exact signed_links readers
  · exact .bind (term_links readers) fun e => .skip remaining_links fun bound => accesses_links readers bound e
  · exact .bind (readers _) fun left => .skip remaining_links fun bound => operations_links readers _ bound left

end

private theorem exprWithin_links : ∀ depth level, Links l [] [] (exprWithin depth level) l.uses
  | 0, _ => .never (never_unexpected _)
  | depth + 1, level => levelRule_links (exprWithin_links depth) level

theorem condition_links : Links l [] [] condition l.uses :=
  .skip remaining_links fun _ => exprWithin_links _ _

end Grammar

end YaraRules
