import YaraRules.Proofs.ConditionScopes
import YaraRules.Proofs.ReadConditionFrames

/-! What is in sight while a condition is read. The parser keeps the loops around the
present expression in its state, and what it looks names up in is what the condition
sees there. Tokens get other kinds and literals, but no text changes. -/

namespace YaraRules

open TokenStream (Plain ButFor)

/-! ### Words and tables -/

theorem OperandClass.accepts_iff (c : OperandClass) (type : ValueType) :
    c.accepts type = true ↔ type.Among c.types := by
  simp [accepts, ValueType.Among]

/-- Number of loops over strings. -/
def Loop.depth : List Loop → Nat
  | [] => 0
  | .strings :: loops => Loop.depth loops + 1
  | .through .. :: loops => Loop.depth loops

private theorem Loop.strings_of_depth {loops : List Loop} (inside : Loop.depth loops ≠ 0) : .strings ∈ loops := by
  induction loops with
  | nil => exact absurd rfl inside
  | cons loop rest ih =>
    cases loop with
    | strings => exact List.mem_cons_self
    | through => exact List.mem_cons_of_mem _ (ih inside)

private theorem SymbolTable.lookup?_mk_isSome (symbols : List Symbol) (name : String) :
    ((SymbolTable.mk symbols).lookup? name).isSome ↔ ∃ symbol ∈ symbols, symbol.name = name := by
  simp [lookup?, List.find?_isSome]

private theorem SymbolTable.name_of_lookup? {table : SymbolTable} {name : String} {symbol : Symbol}
    (found : table.lookup? name = some symbol) : symbol.name = name := by
  simpa using List.find?_some found

@[simp] theorem Symbol.name_renamed (name : String) (symbol : Symbol) : (symbol.renamed name).name = name := by
  cases symbol <;> rfl

namespace Outlook

variable (o : Outlook)

@[simp] theorem name_heldBy (scopes : List SymbolTable) (iterable : Expr) (place : Nat) (name : String) :
    (o.heldBy scopes iterable place name).name = name := by
  unfold heldBy
  split
  · split_ifs
    · rfl
    · split
      · exact Symbol.name_renamed name _
      · rfl
  · rfl
  · rfl

/-- The tables of loops hold the variables of the loops. -/
theorem lookup_tables (loops : List Loop) (name : String) : ((o.tables loops).findSome? (·.lookup? name)).isSome ↔
    ∃ vars iterable, .through vars iterable ∈ loops ∧ ∃ var ∈ vars, o.word var = name := by
  induction loops with
  | nil => simp [tables]
  | cons loop rest ih =>
    cases loop with
    | strings => simp [tables, ih]
    | through vars iterable =>
      have own : ((SymbolTable.mk (vars.mapIdx fun place var =>
        o.heldBy (o.tables rest) iterable place (o.word var))).lookup? name).isSome ↔
          ∃ var ∈ vars, o.word var = name := by
        rw [SymbolTable.lookup?_mk_isSome]
        simp only [List.mem_iff_getElem]
        constructor
        · rintro ⟨_, ⟨place, small, rfl⟩, same⟩
          exact ⟨_, ⟨place, by simpa using small, rfl⟩, by simpa using same⟩
        · rintro ⟨_, ⟨place, small, rfl⟩, same⟩
          exact ⟨_, ⟨place, by simpa using small, rfl⟩, by simpa using same⟩
      simp only [tables, List.findSome?_cons]
      split
      next symbol found =>
        simp only [Option.isSome_some, true_iff]
        obtain ⟨var, member, same⟩ := own.mp (by simp [found])
        exact ⟨vars, iterable, List.mem_cons_self, var, member, same⟩
      next missing =>
        rw [ih]
        constructor
        · rintro ⟨vars', iterable', member, known⟩
          exact ⟨vars', iterable', List.mem_cons_of_mem _ member, known⟩
        · rintro ⟨vars', iterable', member, known⟩
          rcases List.mem_cons.mp member with same | later
          · cases same
            exact absurd (own.mpr known) (by simp [missing])
          · exact ⟨vars', iterable', later, known⟩

private theorem name_of_tables {loops : List Loop} {name : String} {symbol : Symbol}
    (found : (o.tables loops).findSome? (·.lookup? name) = some symbol) : symbol.name = name := by
  obtain ⟨table, _, listed⟩ := List.exists_of_findSome?_eq_some found
  exact SymbolTable.name_of_lookup? listed

end Outlook

theorem TokenStream.ButFor.trans {h : Handle} {s between after : TokenStream} (first : ButFor h s between)
    (second : ButFor h between after) : ButFor h s after where
  sound := second.sound
  ids := second.ids.trans first.ids
  places := second.places.trans first.places
  others k apart := (second.others k apart).trans (first.others k apart)
  sees k target := (second.sees k target).trans (first.sees k target)

namespace Grammar

/-! ### What is in sight -/

/-- What a condition sees is what is known while it is read. -/
structure Sighted (o : Outlook) (l : Ledger) : Prop where
  rules : ∀ name, name ∈ o.rules ↔ name ∈ l.rules.map (·.1)
  strings : l.strings.values = o.strings
  neat : l.strings.Neat
  labeled : l.strings.Labeled
  keyed : ∀ string ∈ l.strings.toList, o.word string.2.id = string.1
  modules : ∀ i ∈ o.imports, i.imported.content.name = i.moduleName

/-- The parser knows what is in sight inside the loops, and tokens have their texts. -/
structure Ready (o : Outlook) (l : Ledger) (loops : List Loop) (spare : List Handle) (s : State) : Prop where
  linking : ∃ roles, Linking l roles spare s
  tables : s.scopes = o.tables loops
  depth : s.stringLoops = Loop.depth loops
  word : ∀ h, s.source.tokens.text h = o.word h
  raw : ∀ h ∈ s.source.rest, ∀ a, s.source.tokens.get? h = some a → Raw a
  imports : s.imports = o.imports
  globals : o.globals = if s.settings.features.virusTotal then virusTotalGlobals else []

variable {o : Outlook} {l : Ledger} {loops : List Loop} {spare : List Handle} {s : State} {h : Handle}

/-- A token keeps its text with its own content and that of the token whose name it shows. -/
theorem Linking.text_same {roles : List Role} (link : Linking l roles spare s) {tokens : TokenStream} {k : Handle}
    (own : tokens.get? k = s.source.tokens.get? k)
    (named : ∀ role ∈ roles, tokens.get? role.token = s.source.tokens.get? role.token) : tokens.text k =
    s.source.tokens.text k := by
  cases stored : s.source.tokens.get? k with
  | none => simp only [TokenStream.text, stored, own.trans stored]
  | some a =>
    rw [TokenStream.text_eq _ stored, TokenStream.text_eq _ (own.trans stored)]
    cases points : a.literal.aliasTarget? with
    | none => rw [TokenStream.textOf_plain _ points, TokenStream.textOf_plain _ points]
    | some target =>
      obtain ⟨same, b, held, plain⟩ : tokens.get? target = s.source.tokens.get? target ∧ ∃ b,
        s.source.tokens.get? target = some b ∧ Plain b := by
        rcases link.aliases k a target stored points with ⟨_, text, part⟩ | ⟨_, part⟩
        · obtain ⟨_, b, held, _, plain, _⟩ := link.placed _ part
          exact ⟨named _ part, b, held, plain⟩
        · obtain ⟨_, b, held, _, plain⟩ := link.placed _ part
          exact ⟨named _ part, b, held, plain⟩
      rw [TokenStream.textOf_alias _ points held plain, TokenStream.textOf_alias _ points (same.trans held) plain]

/-- Tokens keep their texts while others change that have no part yet. -/
theorem Linking.text_kept {roles : List Role} {changed : List Handle} (link : Linking l roles spare s)
    (within : changed ⊆ spare ++ s.source.rest) {tokens : TokenStream}
    (same : ∀ k, k ∉ changed → tokens.get? k = s.source.tokens.get? k) {k : Handle} (apart : k ∉ changed) :
    tokens.text k = s.source.tokens.text k :=
  link.text_same (same k apart) fun role part => same _ fun inside => (link.placed role part).1 (within inside)

namespace Ready

theorem fewer {few : List Handle} (ready : Ready o l loops spare s) (fewer : few.Sublist spare) :
    Ready o l loops few s :=
  { ready with linking := ready.linking.imp fun _ link => link.fewer fewer }

theorem drop (ready : Ready o l loops (h :: spare) s) : Ready o l loops spare s :=
  ready.fewer (List.sublist_cons_self h spare)

theorem plain (ready : Ready o l loops (h :: spare) s) : ∃ a, s.source.tokens.get? h = some a ∧ Plain a := by
  obtain ⟨roles, link⟩ := ready.linking
  exact (link.loose h (by simp)).plain

/-- One token that was read has changed and has the same text. -/
theorem change {tokens : TokenStream} (ready : Ready o l loops (h :: spare) s)
    (change : ButFor h s.source.tokens tokens) (text : tokens.text h = o.word h) {kept : List Handle}
    (linking : ∃ roles, Linking l roles kept (s.onTokens fun _ => tokens)) : Ready o l loops kept
    (s.onTokens fun _ => tokens) where
  linking := linking
  tables := ready.tables
  depth := ready.depth
  word k := by
    obtain ⟨roles, link⟩ := ready.linking
    by_cases same : k = h
    · exact same ▸ text
    · rw [← ready.word k]
      exact link.text_kept (by simp : [h] ⊆ _) (fun k apart => change.others k (by simpa using apart))
        (by simpa using same)
  raw k member a stored := by
    obtain ⟨roles, link⟩ := ready.linking
    have apart : k ≠ h := fun same => (List.nodup_cons.mp link.apart).1 (List.mem_append_right _ (same ▸ member))
    exact ready.raw k member a ((change.others k apart).symm.trans stored)
  imports := ready.imports
  globals := ready.globals

/-- A token that was read changes, has its own literal and the same text. -/
theorem hold {f : Token → Token} (ready : Ready o l loops (h :: spare) s)
    (same : ∀ a, s.source.tokens.get? h = some a → Plain a → Plain (f a) ∧ TokenStream.writtenAs (f a).kind
    (f a).literal.text = o.word h) : Ready o l loops (h :: spare) (s.onTokens (·.modify h f)) := by
  obtain ⟨roles, link⟩ := ready.linking
  obtain ⟨a, stored, plain⟩ := ready.plain
  obtain ⟨own, text⟩ := same a stored plain
  have now : (s.source.tokens.modify h f).get? h = some (f a) := by
    rw [TokenStream.get?_modify, if_pos rfl, stored]
    rfl
  have change := link.sound.modify_butFor h f
  refine ready.change change ?_ ⟨roles, link.hold change ⟨_, now, own⟩⟩
  rw [TokenStream.text_eq _ now, TokenStream.textOf_plain _ own, text]

end Ready

theorem Ready.unread (ready : Ready o l loops (h :: spare) s) : h ∉ s.source.rest := by
  obtain ⟨roles, link⟩ := ready.linking
  exact fun member => (List.nodup_cons.mp link.apart).1 (List.mem_append_right _ member)

/-- The token is of a kind and names nothing yet. -/
def Kinded (kind : TokenKind) (h : Handle) (s : State) : Prop :=
  ∃ a, s.source.tokens.get? h = some a ∧ a.kind = kind ∧ Raw a

/-! ### Symbols of expressions -/

/-- Tokens that hold the symbol of an expression. -/
def symbolTokens : Expr → List Handle
  | .atom _ .name token => [token]
  | .field _ _ _ member => [member]
  | .index _ array _ _ _ => symbolTokens array
  | _ => []

private theorem symbolIn?_congr {tokens tokens' : TokenStream} :
    ∀ (e : Expr), (∀ h ∈ symbolTokens e, tokens'.get? h = tokens.get? h) →
    symbolIn? tokens' e = symbolIn? tokens e
  | .atom _ kind token, same => by
    cases kind with
    | name => simp only [symbolIn?, same token (by simp [symbolTokens])]
    | _ => rfl
  | .field _ _ _ member, same => by simp only [symbolIn?, same member (by simp [symbolTokens])]
  | .index _ array _ _ _, same => by simp only [symbolIn?, symbolIn?_congr array same]
  | .regexp .., _ | .stringAt .., _ | .stringIn .., _ | .stringIndexed .., _ | .unary .., _ | .binary ..,
    _ | .paren .., _
  | .range .., _ | .set .., _ | .call .., _ | .integerFunction .., _ | .of .., _ | .ofAnchored .., _ | .forOf .., _
  | .forIn .., _ | .percentage .., _ => rfl

/-- The tokens of an expression hold its symbol, and they were read. -/
structure Tied (o : Outlook) (loops : List Loop) (e : Expr) (s : State) : Prop where
  symbol : symbolIn? s.source.tokens e = o.symbolOf (o.tables loops) e
  read : ∀ h ∈ symbolTokens e, h ∉ s.source.rest

/-- Reading on leaves what was read as it is. -/
theorem Tied.onward {e : Expr} {s' : State} {given : List Handle} (tied : Tied o loops e s)
    (onward : Onward [] given s s') : Tied o loops e s' := by
  obtain ⟨taken, rest, _, others⟩ := onward.read
  have outside (k : Handle) (member : k ∈ symbolTokens e) : k ∉ taken ∧ k ∉ s'.source.rest := by
    simpa [rest] using tied.read k member
  exact ⟨(symbolIn?_congr e fun k member => others k (outside k member).1).trans tied.symbol, fun k member =>
    (outside k member).2⟩

/-- An expression was read that means something. -/
structure Meant (o : Outlook) (l : Ledger) (loops : List Loop) (spare : List Handle) (e : Expr) (s : State) : Prop where
  fine : o.Fine ⟨loops, false⟩ e
  ready : Ready o l loops spare s
  tied : Tied o loops e s

end Grammar

/-! ### Elementary steps -/

namespace Ensures

open Grammar

variable {α β : Type} {step : Parse α} {next : α → Parse β} {pre : State → Prop} {last : β → State → Prop}

/-- What is the same wherever the source is read on holds afterwards as well. -/
theorem beside {holds : State → Prop} {post : α → State → Prop} {given : α → List Handle} (calm : Calm [] step given)
    (kept : ∀ s s' given, Onward [] given s s' → holds s → holds s') (ensures : Ensures pre step post) :
    Ensures (fun s => holds s ∧ pre s) step fun a s => holds s ∧ post a s :=
  fun s a s' done before => ⟨kept s s' _ (calm.onward s a s' done) before.1, ensures s a s' done before.2⟩

theorem tied {o : Outlook} {loops : List Loop} {e : Expr} {post : α → State → Prop} {given : α → List Handle}
    (calm : Calm [] step given) (ensures : Ensures pre step post) :
    Ensures (fun s => Tied o loops e s ∧ pre s) step fun a s => Tied o loops e s ∧ post a s :=
  .beside calm (fun _ _ _ onward tied => tied.onward onward) ensures

/-- An operand has a type that its operator accepts, or the reading ends. -/
theorem operand {operator : Handle} {operand : Expr} {expected : OperandClass} {side : Side} {next : Unit → Parse β}
    (rest : operand.type.Among expected.types → Ensures pre (next ⟨⟩) last) :
    Ensures pre (checkOperand operator operand expected side >>= next) last := by
  refine .bind (m := fun _ s => operand.type.Among expected.types ∧ pre s)
    (.ite (fun accepted => .pure fun s before => ?_)
    fun _ => .bind (m := fun _ => pre) (fun _ _ _ done before => by cases done; exact before)
      fun _ => .never (never_fail _ _)) fun _ => .given rest
  exact ⟨(OperandClass.accepts_iff _ _).mp accepted, before⟩

end Ensures

namespace Grammar

variable {o : Outlook} {l : Ledger} {loops : List Loop} {spare : List Handle}

private theorem advance_ready : Ensures (Ready o l loops spare) advance fun h => Ready o l loops (h :: spare) := by
  intro s h s' done ready
  obtain ⟨roles, link⟩ := ready.linking
  have linking := advance_ensures s h s' done link
  obtain ⟨rest, read, rfl⟩ := advance_done done
  exact { ready with
    linking := ⟨roles, linking⟩
    raw := fun k member => ready.raw k (read ▸ List.mem_cons_of_mem h member) }

theorem advance_kinded {kind : TokenKind} : Ensures (fun s => Next kind s ∧ Ready o l loops spare s) advance fun h s =>
    Kinded kind h s ∧ Ready o l loops (h :: spare) s := by
  rintro s h s' done ⟨next, ready⟩
  refine ⟨?_, advance_ready s h s' done ready⟩
  obtain ⟨rest, read, rfl⟩ := advance_done done
  obtain ⟨a, stored, same⟩ : ∃ a, s.source.tokens.get? h = some a ∧ a.kind = kind := by simpa [Next, read] using next
  exact ⟨a, stored, same, ready.raw h (by simp [read]) a stored⟩

theorem expect_kinded (kind : TokenKind) : Ensures (Ready o l loops spare) (expect kind) fun h s =>
    Kinded kind h s ∧ Ready o l loops (h :: spare) s := by
  refine .look (fun _ => rfl) fun next => .ite (fun same => ?_) fun _ => .never (never_unexpected _)
  exact .consider _ (fun s seen => ⟨seen.1.trans (beq_iff_eq.mp same), seen.2⟩) advance_kinded

theorem advance_passed : Ensures (Ready o l loops spare) advance fun _ => Ready o l loops spare :=
  .weaken advance_ready fun _ _ ready => ready.drop

theorem expect_passed (kind : TokenKind) : Ensures (Ready o l loops spare)
    (expect kind) fun _ => Ready o l loops spare :=
  .weaken (expect_kinded kind) fun _ _ known => known.2.drop

theorem accept_passed (kind : TokenKind) : Ensures (Ready o l loops spare)
    (accept? kind) fun _ => Ready o l loops spare :=
  .skip (fun _ => rfl) fun _ => .ite (fun _ => .bind advance_passed fun _ => .pure fun _ ready => ready) fun _ => .pure
    fun _ ready => ready

/-- A token gets another kind and is written the same way. -/
theorem refine_kinded {h : Handle} {kind other : TokenKind}
    (same : ∀ text, TokenStream.writtenAs other text = TokenStream.writtenAs kind text)
    (word : ¬ (other = .identifier ∨ other = .stringName)) : Ensures (fun s => Kinded kind h s ∧
    Ready o l loops (h :: spare) s) (refine h other) fun _ s =>
      Kinded other h s ∧ Ready o l loops (h :: spare) s := by
  refine .modify ?_
  rintro s ⟨⟨a, stored, rfl, raw⟩, ready⟩
  refine ⟨⟨{ a with kind := other }, ?_, rfl, raw.unbound, fun named => absurd (.inr named) word, fun named =>
    absurd named word⟩, ready.hold fun b held plain => ?_⟩
  · show (s.source.tokens.modify h _).get? h = _
    rw [TokenStream.get?_modify, if_pos rfl, stored]
    rfl
  · obtain rfl : a = b := Option.some.inj (stored.symm.trans held)
    refine ⟨plain, ?_⟩
    rw [← ready.word h, TokenStream.text_eq _ stored, TokenStream.textOf_plain _ plain]
    exact same _

theorem breakAfter_ready {h : Handle} {wanted : Bool} :
    Ensures (Ready o l loops (h :: spare)) (breakAfter h wanted) fun _ => Ready o l loops (h :: spare) := by
  refine .modify fun s ready => ready.hold fun a stored plain => ⟨plain, ?_⟩
  rw [← ready.word h, TokenStream.text_eq _ stored, TokenStream.textOf_plain _ plain]

/-- A token holds a symbol that has its text for a name. -/
theorem setSymbol_ensures {h : Handle} {symbol : Symbol} (named : symbol.name = o.word h) :
    Ensures (fun s => Kinded .symbolName h s ∧ Ready o l loops (h :: spare) s)
    (setLiteral h (.ofSymbol symbol)) fun _ s =>
      Ready o l loops (h :: spare) s ∧ ∃ a, s.source.tokens.get? h = some a ∧ a.literal.asSymbol? = some symbol := by
  refine .modify ?_
  rintro s ⟨⟨a, stored, kind, _⟩, ready⟩
  refine ⟨ready.hold fun b held plain => ⟨rfl, ?_⟩, { a with literal := .ofSymbol symbol }, ?_, rfl⟩
  · obtain rfl : a = b := Option.some.inj (stored.symm.trans held)
    show TokenStream.writtenAs a.kind symbol.name = _
    rw [kind, named]
    rfl
  · show (s.source.tokens.modify h _).get? h = _
    rw [TokenStream.get?_modify, if_pos rfl, stored]
    rfl

theorem checkEscapes_passed (h : Handle) : Ensures (Ready o l loops spare)
    (checkEscapes h) fun _ => Ready o l loops spare := by
  refine .skip (fun _ => rfl) fun tokens => ?_
  split
  · split
    · exact .pure fun _ ready => ready
    · exact .skip (fun _ => rfl) fun _ => .never (never_fail _ _)
  · exact .pure fun _ ready => ready

theorem readRegexp_passed (h : Handle) : Ensures (Ready o l loops spare)
    (readRegexp h) fun _ => Ready o l loops spare := by
  refine .skip (fun _ => rfl) fun text => ?_
  split
  · exact .pure fun _ ready => ready
  · exact .never (never_fail _ _)

/-! ### Names -/

section

variable {h : Handle}

/-- A name that stands for something means that. -/
theorem Meant.name {s : State} {referent : Referent} (found : o.referent? (o.tables loops) (o.word h) = some referent)
    (known : o.Known loops (o.word h)) (ready : Ready o l loops spare s) {a : Token}
    (stored : s.source.tokens.get? h = some a) (holds : a.literal.asSymbol? = referent.symbol?)
    (unread : h ∉ s.source.rest) : Meant o l loops spare (.atom referent.type .name h) s where
  fine := by
    refine Outlook.Fine.node ⟨known, ?_, trivial⟩ (by simp [Expr.placed, Expr.children])
    simp [Outlook.typeAt, Outlook.typeOf, Expr.type, found]
  ready := ready
  tied := ⟨by simp [symbolIn?, stored, holds, Outlook.symbolOf, found], by simpa [symbolTokens] using unread⟩

private theorem symbol_meant {symbol : Symbol} (found : o.referent? (o.tables loops) (o.word h) = some (.symbol symbol))
    (known : o.Known loops (o.word h)) (named : symbol.name = o.word h) :
    Ensures (fun s => Kinded .symbolName h s ∧ Ready o l loops (h :: spare) s)
      (do setLiteral h (.ofSymbol symbol); return .atom symbol.type .name h : Parse Expr) (Meant o l loops spare) := by
  refine .bind (setSymbol_ensures named) fun _ => .pure ?_
  rintro s ⟨ready, a, stored, holds⟩
  exact .name found known ready.drop stored holds ready.unread

/-- A token becomes an alias of one with a part, which has the text that the token is to show. -/
theorem Ready.point {s : State} (ready : Ready o l loops (h :: spare) s) {roles : List Role}
    (link : Linking l roles (h :: spare) s) {a b : Token} (stored : s.source.tokens.get? h = some a) {target : Handle}
    (held : s.source.tokens.get? target = some b) (plain : Plain b) (apart : target ≠ h)
    (text : TokenStream.writtenAs a.kind b.literal.text = o.word h) {role : Role} (own : role.token = h)
    (suits : role.Suits l.rules (s.source.tokens.setLiteral h (.ofAlias target)) { a with literal := .ofAlias target })
    (leads : Role.Leads (roles ++ [role]) h target) :
    Ready o l loops spare (s.onTokens (·.setLiteral h (.ofAlias target))) := by
  have change : ButFor h s.source.tokens (s.source.tokens.setLiteral h (.ofAlias target)) :=
    link.sound.modify_butFor h _
  have now : (s.source.tokens.setLiteral h (.ofAlias target)).get? h = some { a with literal := .ofAlias target } := by
    rw [TokenStream.setLiteral, TokenStream.get?_modify, if_pos rfl, stored]
    rfl
  refine ready.change change ?_ ⟨_, link.use change now own suits fun other points => ?_⟩
  · show (s.source.tokens.setLiteral h (.ofAlias target)).text h = _
    rw [TokenStream.text_eq _ now, TokenStream.textOf_alias _ rfl ((change.others target apart).trans held) plain]
    exact text
  · cases points
    exact leads

private theorem rule_meant (sighted : Sighted o l) {st : State} {target : Handle}
    (found : st.ruleNames.lookup (o.word h) = some target)
    (free : (o.tables loops).findSome? (·.lookup? (o.word h)) = none) :
    Ensures (fun s => st = s ∧ Kinded .symbolName h s ∧ Ready o l loops (h :: spare) s) (do
        if (st.source.tokens.get? target).isSome then
          setLiteral h (st.source.tokens.aliasOf target)
        return .atom .boolean .name h : Parse Expr) (Meant o l loops spare) := by
  have meant {s : State} (member : o.word h ∈ o.rules) (ready : Ready o l loops spare s) {a : Token}
      (stored : s.source.tokens.get? h = some a) (holds : a.literal.asSymbol? = none) (unread : h ∉ s.source.rest) :
      Meant o l loops spare (.atom .boolean .name h) s :=
    .name (show o.referent? (o.tables loops) (o.word h) = some .rule by simp [Outlook.referent?, free, member])
      (.inr (.inl member)) ready stored holds unread
  have listed {s : State} (same : st = s) (ready : Ready o l loops (h :: spare) s) : o.word h ∈ o.rules := by
    obtain ⟨roles, link⟩ := ready.linking
    exact (sighted.rules _).mpr (List.mem_map_of_mem (link.listed (same ▸ found)))
  refine .ite (fun live => ?_) fun _ => ?_
  · refine .bind (m := fun _ s => o.word h ∈ o.rules ∧ Ready o l loops spare s ∧ h ∉ s.source.rest ∧
      ∃ a, s.source.tokens.get? h = some a ∧ a.literal.asSymbol? = none) (.modify ?_) fun _ => .pure ?_
    · rintro s ⟨same, ⟨a, stored, kind, _⟩, ready⟩
      have member := listed same ready
      subst same
      obtain ⟨roles, link⟩ := ready.linking
      obtain ⟨_, held⟩ := Option.isSome_iff_exists.mp live
      have inside := TokenStream.mem_ids_of_get? held
      obtain ⟨named, _⟩ := link.rule_live found inside
      obtain ⟨taken, b, held, _, plain, text⟩ := link.placed _ named
      have held : st.source.tokens.get? target = some b := held
      have apart : target ≠ h := fun same => taken (by simp [Role.token, same])
      have sees : st.source.tokens.Sees h target := ⟨_, TokenStream.owner?_top (link.loose h (by simp)).own, inside⟩
      rw [TokenStream.aliasOf_plain _ held plain]
      have change := link.sound.modify_butFor h fun token => { token with literal := .ofAlias target }
      refine ⟨member, ?_, ready.unread, { a with literal := .ofAlias target }, ?_, rfl⟩
      · refine ready.point link stored held plain apart ?_ (show Role.token (.nameUse h) = h from rfl)
          ⟨kind, .inr ⟨_, link.listed found, .inl ⟨rfl, (change.sees _ _).mpr sees⟩⟩⟩
            (.inl ⟨by simp, o.word h, by simp [named]⟩)
        rw [kind]
        exact text
      · show (st.source.tokens.modify h _).get? h = _
        rw [TokenStream.get?_modify, if_pos rfl, stored]
        rfl
    · rintro s ⟨member, ready, unread, a, stored, holds⟩
      exact meant member ready stored holds unread
  · refine .pure ?_
    rintro s ⟨same, ⟨a, stored, _, raw⟩, ready⟩
    exact meant (listed same ready) ready.drop stored raw.unbound ready.unread

theorem Ready.global {s : State} (ready : Ready o l loops spare s) (name : String) : global? s name =
    match o.imports.find? (·.moduleName == name) with
    | some i => some i.imported.content
    | none => o.globals.find? (·.name == name) := by
  unfold global?
  rw [ready.imports, ready.globals]
  cases o.imports.find? (·.moduleName == name) with
  | some i => rfl
  | none => cases s.settings.features.virusTotal <;> rfl

theorem name_meant (sighted : Sighted o l) : Ensures (fun s => Kinded .identifier h s ∧ Ready o l loops (h :: spare) s)
    (name h) (Meant o l loops spare) := by
  unfold name
  refine .known (fun _ => rfl) (fun s known => known.2.word h) ?_
  refine .bind (refine_kinded (fun _ => rfl) (by decide)) fun _ => .bind .get fun st => ?_
  -- The loops that the parser is in are those around the expression.
  have loops_ (s : State) (known : st = s ∧ Kinded .symbolName h s ∧ Ready o l loops (h :: spare) s) :
      variable_? st.scopes (o.word h) = (o.tables loops).findSome? (·.lookup? (o.word h)) := by
    rw [known.1, known.2.2.tables]
    rfl
  split
  next symbol found =>
    refine .consider (fun s => (o.tables loops).findSome? (·.lookup? (o.word h)) = some symbol ∧
      Kinded .symbolName h s ∧
      Ready o l loops (h :: spare) s) (fun s known => ⟨(loops_ s known).symm.trans found, known.2⟩) (.given
        fun found => ?_)
    refine symbol_meant (by simp [Outlook.referent?, found]) (.inl ?_) (o.name_of_tables found)
    exact (o.lookup_tables loops _).mp (by simp [found])
  next missing =>
    refine .consider (fun s => (o.tables loops).findSome? (·.lookup? (o.word h)) = none ∧ st = s ∧
      Kinded .symbolName h s ∧
      Ready o l loops (h :: spare) s) (fun s known => ⟨(loops_ s known).symm.trans missing, known⟩)
        (.given fun free => ?_)
    split
    next target found => exact rule_meant sighted found free
    next unlisted =>
      have outside (s : State) (known : st = s ∧ Kinded .symbolName h s ∧ Ready o l loops (h :: spare) s) :
          o.word h ∉ o.rules := by
        obtain ⟨rfl, _, ready⟩ := known
        obtain ⟨roles, link⟩ := ready.linking
        rw [sighted.rules]
        exact link.fresh (by simp [unlisted])
      split
      next symbol found =>
        refine .consider (fun s => (o.word h ∉ o.rules ∧ (match o.imports.find? (·.moduleName == o.word h) with
            | some i => some i.imported.content
            | none =>
              o.globals.find? (·.name == o.word h)) = some symbol) ∧ Kinded .symbolName h s ∧
                Ready o l loops (h :: spare) s)
          (fun s known => ⟨⟨outside s known, ?_⟩, known.2⟩) (.given ?_)
        · obtain ⟨rfl, _, ready⟩ := known
          exact (ready.global _).symm.trans found
        · rintro ⟨unlisted, found⟩
          split at found
          next i imported =>
            cases found
            have named : i.moduleName = o.word h := by simpa using List.find?_some imported
            have member := List.mem_of_find?_eq_some imported
            exact symbol_meant (by simp [Outlook.referent?, free, unlisted, imported])
              (.inr (.inr (.inl ⟨i, member, named⟩)))
              ((sighted.modules i member).trans named)
          next missing =>
            have named : symbol.name = o.word h := by simpa using List.find?_some found
            exact symbol_meant (by simp [Outlook.referent?, free, unlisted, missing, found])
              (.inr (.inr (.inr ⟨symbol, List.mem_of_find?_eq_some found, named⟩))) named
      next => exact .never (never_fail _ _)

end

/-! ### Strings -/

private theorem writtenAs_name {kind : TokenKind} (refers : Refers kind) {text : String}
    (sigil : kind = .stringName → text.toList.head? = some '$') : TokenStream.writtenAs kind
    ("$" ++ String.ofList ((TokenStream.writtenAs kind text).toList.drop 1)) = TokenStream.writtenAs kind text := by
  simp only [Refers, List.mem_cons, List.not_mem_nil, or_false] at refers
  rcases refers with rfl | rfl | rfl | rfl
  · obtain ⟨c, rest, split⟩ : ∃ c rest, text.toList = c :: rest := by
      cases split : text.toList with
      | nil => simp [split] at sigil
      | cons c rest => exact ⟨c, rest, rfl⟩
    obtain rfl : c = '$' := by simpa [split] using sigil rfl
    simp [TokenStream.writtenAs, ← String.toList_inj, split]
  · simp [TokenStream.writtenAs, TokenStream.withSigil]
  · simp [TokenStream.writtenAs, TokenStream.withSigil]
  · simp [TokenStream.writtenAs, TokenStream.withSigil]

theorem stringReference_named (sighted : Sighted o l) {h : Handle} {kind : TokenKind} (refers : Refers kind) :
    Ensures (fun s => Kinded kind h s ∧ Ready o l loops (h :: spare) s) (stringReference h) fun _ s =>
      o.NamesString loops (o.word h) ∧ Ready o l loops spare s := by
  unfold stringReference
  refine .known (fun _ => rfl) (fun s known => known.2.word h) (.bind .get fun st =>
    .ite (fun bare => ?_) fun named => ?_)
  · have tail : (o.word h).toList.drop 1 = [] := by simpa [← String.toList_inj] using bare
    refine .ite (fun _ => .never (never_fail _ _)) fun inside => .pure ?_
    rintro s ⟨rfl, _, ready⟩
    refine ⟨?_, ready.drop⟩
    simp only [Outlook.NamesString, tail]
    exact Loop.strings_of_depth (by simpa [ready.depth] using inside)
  · have tail : (o.word h).toList.drop 1 ≠ [] := by simpa [← String.toList_inj] using named
    split
    next string found =>
      refine .modify ?_
      rintro s ⟨rfl, ⟨a, stored, same, raw⟩, ready⟩
      obtain ⟨roles, link⟩ := ready.linking
      have member := sighted.labeled.get? (link.strings ▸ found)
      have listed : string ∈ l.strings.values := List.mem_map_of_mem member
      have word : o.word string.id = "$" ++ String.ofList ((o.word h).toList.drop 1) := sighted.keyed _ member
      obtain ⟨taken, b, held, kind', plain⟩ := link.placed _ (link.known string listed)
      have held : st.source.tokens.get? string.id = some b := held
      have apart : string.id ≠ h := fun same => taken (by simp [Role.token, same])
      obtain ⟨a', stored', own⟩ := ready.plain
      obtain rfl : a = a' := Option.some.inj (stored.symm.trans stored')
      refine ⟨?_, ?_⟩
      · unfold Outlook.NamesString
        split
        next none => exact absurd none tail
        next => exact ⟨string, sighted.strings ▸ listed, by simp [word]⟩
      · rw [TokenStream.aliasOf_plain _ held plain]
        refine ready.point link stored held plain apart ?_ (show Role.token (.stringUse h l.ids) = h from rfl)
          ⟨same ▸ refers, .inl ⟨string.id, List.mem_map_of_mem listed, rfl⟩⟩
            (.inr ⟨⟨l.ids, by simp⟩, by simp [link.known string listed]⟩)
        have shown : b.literal.text = o.word string.id := by
          rw [← ready.word, TokenStream.text_eq _ held, TokenStream.textOf_plain _ plain, kind']
          rfl
        have written : TokenStream.writtenAs a.kind a.literal.text = o.word h := by
          rw [← ready.word, TokenStream.text_eq _ stored, TokenStream.textOf_plain _ own]
        rw [shown, word, ← written]
        exact writtenAs_name (same ▸ refers) raw.sigil
    next => exact .never (never_fail _ _)

end Grammar

end YaraRules
