import YaraRules.Proofs.ReadScopes

/-! Conditions that are read mean something: their words stand for what is in sight, their
types are those of their parts and their operands are accepted. Each rule of the
grammar makes a node that means something of parts that do. -/

namespace YaraRules

private theorem UnaryOp.operand_accepted {op : UnaryOp} {expected : OperandClass}
    (asked : op.operand? = some expected) : expected.types = op.accepted := by
  cases op <;> cases asked <;> rfl

private theorem BinaryOp.operands_accepted (op : BinaryOp) (left : ValueType) :
    (op.operands left).1.types = op.acceptedLeft ∧ (op.operands left).2.types = op.acceptedRight left := by
  cases op <;> cases left <;> exact ⟨rfl, rfl⟩

private theorem BinaryOp.result_eq (op : BinaryOp) (left right : ValueType) : op.result left right =
    if op.isArithmetic then if left = .float ∨ right = .float then .float else .integer
    else if op.isIntegral then .integer else .boolean := by
  cases op <;> simp [result, isArithmetic, isIntegral]

namespace Grammar

variable {o : Outlook} {l : Ledger} {loops : List Loop} {spare : List Handle}

/-! ### Nodes of parts -/

theorem Meant.node {e : Expr} {s : State} (ready : Ready o l loops spare s)
    (nameless : symbolTokens e = [] ∧ ∀ tokens, symbolIn? tokens e = o.symbolOf (o.tables loops) e)
    (fits : o.Fits ⟨loops, false⟩ e) (below : ∀ child ∈ e.placed loops, o.Fine child.1 child.2) :
    Meant o l loops spare e s :=
  ⟨.node fits below, ready, nameless.2 _, by simp [nameless.1]⟩

private theorem fine_below {e : Expr} (fine : ∀ child ∈ e.children, o.Fine ⟨loops, false⟩ child)
    (plain : e.sitesBelow loops = e.children.map fun _ => ⟨loops, false⟩) : ∀ child ∈ e.placed loops,
    o.Fine child.1 child.2 := by
  intro child member
  obtain ⟨site, inside⟩ := List.of_mem_zip member
  obtain ⟨_, _, same⟩ := List.mem_map.mp (plain ▸ site)
  exact same ▸ fine child.2 inside

private theorem unspoken {p : Handle → Prop} : ∀ token : Handle, (none : Option Handle) = some token → p token := nofun

private theorem pure_meant {e : Expr}
    (nameless : symbolTokens e = [] ∧ ∀ tokens, symbolIn? tokens e = o.symbolOf (o.tables loops) e)
    (fits : o.Fits ⟨loops, false⟩ e) (below : ∀ child ∈ e.placed loops, o.Fine child.1 child.2) : Ensures
    (Ready o l loops spare) (pure e : Parse Expr) (Meant o l loops spare) :=
  .pure fun _ ready => .node ready nameless fits below

end Grammar

open TokenStream (ButFor)

open Grammar in
/-- What was read means something, and other expressions are made of it. -/
theorem Ensures.meant {o : Outlook} {l : Ledger} {loops : List Loop} {spare : List Handle} {β : Type}
    {step : Parse Expr} {next : Expr → Parse β} {pre : State → Prop} {last : β → State → Prop}
    (first : Ensures pre step (Meant o l loops spare)) (rest : ∀ e, o.Fine ⟨loops, false⟩ e →
    Ensures (Ready o l loops spare) (next e) last) : Ensures pre (step >>= next) last :=
  .bind first fun e => .consider (fun s => o.Fine ⟨loops, false⟩ e ∧ Ready o l loops spare s) (fun _ meant =>
    ⟨meant.fine, meant.ready⟩)
    (.given (rest e))

namespace Grammar

variable {o : Outlook} {l : Ledger} {loops : List Loop} {spare : List Handle}

private theorem separated_meant {separator : TokenKind} {item : Parse Expr}
    (each : Ensures (Ready o l loops spare) item (Meant o l loops spare)) :
    ∀ bound, Ensures (Ready o l loops spare) (separated separator item bound) fun es s =>
      (∀ e ∈ es, o.Fine ⟨loops, false⟩ e) ∧ Ready o l loops spare s
  | 0 => Ensures.meant each fun e fine => .pure fun s ready => ⟨by simpa using fine, ready⟩
  | bound + 1 => Ensures.meant each fun e fine => .bind (accept_passed _) fun next => by
    cases next with
    | none => exact .pure fun s ready => ⟨by simpa using fine, ready⟩
    | some _ =>
      refine .bind (separated_meant each bound) fun es => .given fun others => .pure fun s ready => ⟨?_, ready⟩
      exact List.forall_mem_cons.mpr ⟨fine, others⟩

private theorem binary_meant {op : BinaryOp} {left right : Expr} (token : Handle)
    (fineLeft : o.Fine ⟨loops, false⟩ left) (fineRight : o.Fine ⟨loops, false⟩ right) : Ensures (Ready o l loops spare)
    (binary op left token right) (Meant o l loops spare) := by
  obtain ⟨onLeft, onRight⟩ := op.operands_accepted left.type
  refine .operand fun (acceptedLeft : left.type.Among (op.operands left.type).1.types) =>
    .operand fun (acceptedRight : right.type.Among (op.operands left.type).2.types) => ?_
  refine pure_meant ⟨rfl, fun _ => rfl⟩ ⟨unspoken, ?_, onLeft ▸ acceptedLeft, onRight ▸ acceptedRight⟩
    (by simp [Expr.placed, Expr.sitesBelow, Expr.children, fineLeft, fineRight])
  show op.result left.type right.type = o.typeOf (o.tables loops)
    (.binary (op.result left.type right.type) op left token right)
  rw [BinaryOp.result_eq, fineLeft.type, fineRight.type, Outlook.typeOf]

private theorem unary_meant {op : UnaryOp} {operand : Expr} (token : Handle) (fine : o.Fine ⟨loops, false⟩ operand) :
    Ensures (Ready o l loops spare) (unary op token operand) (Meant o l loops spare) := by
  have done (accepted : operand.type.Among op.accepted) : Ensures (Ready o l loops spare)
      (pure (.unary (op.result operand.type) op token operand) : Parse Expr) (Meant o l loops spare) := by
    refine pure_meant ⟨rfl, fun _ => rfl⟩ ⟨unspoken, ?_, accepted⟩
      (by simp [Expr.placed, Expr.sitesBelow, Expr.children, fine])
    cases op with
    | minus => exact fine.type
    | _ => rfl
  unfold unary
  split
  next expected asked => exact .operand fun accepted => done (UnaryOp.operand_accepted asked ▸ accepted)
  next asked =>
    refine done ?_
    cases op <;> cases asked
    generalize operand.type = type
    cases type <;> simp [ValueType.Among, UnaryOp.accepted]

/-! ### Ranges, sets and parentheses -/

private theorem rangeOf_meant {low high : Expr} (opening dots closing : Handle) (fineLow : o.Fine ⟨loops, false⟩ low)
    (fineHigh : o.Fine ⟨loops, false⟩ high) :
    Ensures (Ready o l loops spare) (rangeOf opening low dots high closing) fun e s =>
      e = .range .integer opening low dots high closing ∧ Meant o l loops spare e s := by
  refine .operand fun acceptedLow => .operand fun acceptedHigh => .skip (fun _ => rfl) fun tokens => ?_
  have done : Ensures (Ready o l loops spare) (pure (.range .integer opening low dots high closing) : Parse Expr)
    fun e s =>
      e = .range .integer opening low dots high closing ∧ Meant o l loops spare e s := by
    refine .pure fun s ready => ⟨rfl, .node ready ⟨rfl, fun _ => rfl⟩ ⟨unspoken, rfl, acceptedLow, acceptedHigh⟩ ?_⟩
    simp [Expr.placed, Expr.sitesBelow, Expr.children, fineLow, fineHigh]
  dsimp only
  split
  · exact .guard (never_fail _ _) done
  · exact done

section

variable (sighted : Sighted o l)
include sighted

private theorem setElement_meant : Ensures (Ready o l loops spare) setElement (Meant o l loops spare) := by
  refine .look (fun _ => rfl) fun next => ?_
  split
  · refine .bind advance_kinded fun token => .bind (stringReference_named sighted (by simp [Refers]))
      fun _ => .given fun names => ?_
    refine pure_meant ⟨rfl, fun _ => rfl⟩ ⟨fun other named => ?_, rfl, trivial⟩ (by simp [Expr.placed, Expr.children])
    cases named
    exact names
  · refine .consider _ (fun s seen => seen.2) (.bind advance_passed fun token =>
      .known (fun _ => rfl) (fun s ready => ready.word token) ?_)
    refine .bind .get fun st => .ite (fun _ => .never (.bind (never_fail _ _) _)) fun matched => ?_
    refine .consider (fun s => st.strings = l.strings ∧ Ready o l loops spare s) ?_ (.given fun same => ?_)
    · rintro s ⟨rfl, ready⟩
      exact ⟨ready.linking.elim fun _ link => link.strings, ready⟩
    · rw [same] at matched
      obtain ⟨string, found⟩ := List.exists_mem_of_ne_nil _ (by simpa using matched)
      obtain ⟨name, start, listed⟩ := sighted.labeled.findByStart found
      have word : o.word string.id = name := sighted.keyed _ listed
      have member : string ∈ l.strings.values := List.mem_map_of_mem listed
      exact pure_meant ⟨rfl, fun _ => rfl⟩ ⟨⟨string, sighted.strings ▸ member, word ▸ start⟩, rfl, trivial⟩
        (by simp [Expr.placed, Expr.children])
  · exact .bind advance_kinded fun token => name_meant sighted
  · exact .never (never_unexpected _)

private theorem stringSet_meant : Ensures (Ready o l loops spare) stringSet fun e s => o.Fine ⟨loops, true⟩ e ∧
    Ready o l loops spare s := by
  refine .bind (accept_passed _) fun them => ?_
  cases them with
  | some token =>
    refine .bind .get fun st => .ite (fun _ => .never (.bind (never_fail _ _) _)) fun filled => .pure ?_
    rintro s ⟨rfl, ready⟩
    refine ⟨.node ⟨fun none => ?_, rfl, trivial⟩ (by simp [Expr.placed, Expr.children]), ready⟩
    have same : st.strings = l.strings := ready.linking.elim fun _ link => link.strings
    have size := sighted.neat.size
    rw [sighted.strings, none] at size
    exact filled (by simp [same, NameTrie.isEmpty, size])
  | none =>
    refine .bind (expect_passed _) fun opening => .skip (fun _ => rfl) fun bound => ?_
    refine .bind (separated_meant (setElement_meant sighted) bound) fun elements => .given fun fine => ?_
    refine .bind (expect_passed _) fun closing => .pure fun s ready =>
      ⟨.node ⟨unspoken, rfl, trivial⟩ (fine_below fine rfl), ready⟩

end

/-- What is known of a quantifier: its type is right unless there is nothing left to read, which ends the reading. -/
def Counts (e : Expr) (s : State) : Prop := e.type.Among [.integer] ∨ s.source.rest = []

private theorem expect_some {kind : TokenKind} {s s' : State} {h : Handle} (done : expect kind s = .ok (h, s')) :
    s.source.rest ≠ [] := by
  have calm : Calm [] (expect kind) fun h => [h] := expect_calm kind
  obtain ⟨taken, rest, given, _⟩ := (calm.onward s h s' done).read
  intro none
  have empty : taken = [] := (List.append_eq_nil_iff.mp (rest.symm.trans none)).1
  simp [empty] at given

theorem Counts.expect {quantifier : Expr} {kind : TokenKind} :
    Ensures (fun s => Counts quantifier s ∧ Ready o l loops spare s)
    (expect kind) fun h s => quantifier.type.Among [.integer] ∧ Kinded kind h s ∧ Ready o l loops (h :: spare) s :=
  fun s h s' done ⟨counts, ready⟩ => ⟨counts.resolve_right (expect_some done), expect_kinded kind s h s' done ready⟩

private theorem percentage_meant {operand : Expr} (fine : o.Fine ⟨loops, false⟩ operand) :
    Ensures (Ready o l loops spare) (percentage operand) fun e s => e.type.Among [.integer] ∧
    Meant o l loops spare e s := by
  refine .bind (expect_kinded _) fun percent => .bind (refine_kinded (fun _ => rfl) (by decide)) fun _ => ?_
  refine .consider (Ready o l loops spare) (fun s known => known.2.drop) (.operand fun accepted => ?_)
  refine .pure fun s ready => ⟨.inr (by simp [Expr.type]), .node ready ⟨rfl, fun _ => rfl⟩ ⟨unspoken, rfl, accepted⟩ ?_⟩
  simp [Expr.placed, Expr.sitesBelow, Expr.children, fine]

/-! ### Variables of loops -/

private theorem Ready.goTo {s : State} (ready : Ready o l loops spare s) {others : List Loop}
    {scopes : List SymbolTable} {depth : Nat} (tables : scopes = o.tables others)
    (deep : depth = Loop.depth others) : Ready o l others spare { s with scopes, stringLoops := depth } :=
  { ready with
    linking := ready.linking.imp fun _ link => { link with held := link.held }
    tables := tables
    depth := deep }

/-- A loop has as many variables as its iterable asks for, and they hold what it gives. -/
theorem loopVariables_eq {scopes : List SymbolTable} {iterable : Expr}
    (typed : iterable.type = o.typeOf scopes iterable) {vars : List Handle}
    (count : vars.length = (loopVariables (o.symbolOf scopes iterable) iterable (vars.map o.word)).1) :
    (loopVariables (o.symbolOf scopes iterable) iterable (vars.map o.word)).2 =
      vars.mapIdx fun place var => o.heldBy scopes iterable place (o.word var) := by
  unfold loopVariables at count ⊢
  cases container : o.symbolOf scopes iterable with
  | some symbol =>
    simp only [container] at count ⊢
    split_ifs at count ⊢ with dictionary
    · obtain ⟨key, value, rfl⟩ := List.length_eq_two.mp count
      simp only [List.map_cons, List.map_nil, List.mapIdx_cons, List.mapIdx_nil, Outlook.heldBy, container, dictionary]
      rfl
    · obtain ⟨var, rfl⟩ := List.length_eq_one_iff.mp count
      simp only [List.map_cons, List.map_nil, List.mapIdx_cons, List.mapIdx_nil, Outlook.heldBy, container, dictionary]
      rfl
  | none =>
    simp only [container] at count ⊢
    obtain ⟨var, rfl⟩ := List.length_eq_one_iff.mp count
    cases iterable with
    | set type opening elements closing => simp [Outlook.heldBy, container, ← typed, Expr.type]
    | _ => simp [Outlook.heldBy, container]

private theorem insert_fresh {table : SymbolTable} {symbol : Symbol} (fresh : table.contains symbol.name = false) :
    table.insert symbol = ⟨table.symbols ++ [symbol]⟩ := by
  obtain ⟨symbols⟩ := table
  have absent : ∀ other ∈ symbols, other.name ≠ symbol.name := by
    simpa [SymbolTable.contains, SymbolTable.lookup?] using fresh
  refine congrArg SymbolTable.mk ?_
  show symbol.putAttribute symbols = symbols ++ [symbol]
  induction symbols with
  | nil => rfl
  | cons other rest ih =>
    obtain ⟨first, later⟩ := List.forall_mem_cons.mp absent
    simp [Symbol.putAttribute, first, ih (by simpa [SymbolTable.contains, SymbolTable.lookup?] using later) later]

/-- A name that is not taken stands for nothing. -/
theorem Ready.free (sighted : Sighted o l) {s : State} (ready : Ready o l loops spare s) {name : String}
    (free : isTaken s name = false) : ¬ o.Known loops name := by
  obtain ⟨roles, link⟩ := ready.linking
  simp only [isTaken, Bool.or_eq_false_iff, Option.isSome_eq_false_iff, Option.isNone_iff_eq_none] at free
  obtain ⟨⟨unbound, unlisted⟩, missing⟩ := free
  rw [ready.global] at missing
  rintro (known | listed | ⟨i, member, named⟩ | ⟨symbol, member, named⟩)
  · have bound := (o.lookup_tables loops name).mpr known
    rw [← ready.tables] at bound
    simp [show s.scopes.findSome? (·.lookup? name) = none from unbound] at bound
  · exact link.fresh (by simp [unlisted]) ((sighted.rules name).mp listed)
  · split at missing
    · cases missing
    next none => simpa [named] using List.find?_eq_none.mp none i member
  · split at missing
    · cases missing
    · simpa [named] using List.find?_eq_none.mp missing symbol member

/-- The name of a variable holds a symbol that is written the same way, whatever kind of token it was. -/
theorem Ready.variable {s : State} {h : Handle} (ready : Ready o l loops (h :: spare) s) {symbol : Symbol}
    (named : symbol.name = o.word h) : Ready o l loops spare
    ((s.onTokens (·.setKind h .symbolName)).onTokens (·.setLiteral h (.ofSymbol symbol))) := by
  obtain ⟨roles, link⟩ := ready.linking
  obtain ⟨a, stored, _⟩ := ready.plain
  have kinded : ButFor h s.source.tokens (s.source.tokens.setKind h .symbolName) := link.sound.modify_butFor h _
  have change := kinded.trans (kinded.sound.modify_butFor h fun token => { token with literal := .ofSymbol symbol })
  have now : ((s.source.tokens.setKind h .symbolName).setLiteral h (.ofSymbol symbol)).get? h =
      some { a with kind := .symbolName, literal := .ofSymbol symbol } := by
    rw [TokenStream.setLiteral, TokenStream.get?_modify, if_pos rfl, TokenStream.setKind, TokenStream.get?_modify,
      if_pos rfl, stored]
    rfl
  have plain : TokenStream.Plain { a with kind := .symbolName, literal := .ofSymbol symbol } := rfl
  refine (ready.change change ?_ ⟨roles, link.hold change ⟨_, now, plain⟩⟩).drop
  show ((s.source.tokens.setKind h .symbolName).setLiteral h (.ofSymbol symbol)).text h = _
  rw [TokenStream.text_eq _ now, TokenStream.textOf_plain _ plain, ← named]
  rfl

private theorem declareVariables_meant (sighted : Sighted o l) : ∀ (pairs : List (Handle × Symbol))
    (scope : SymbolTable),
    (∀ pair ∈ pairs, pair.2.name = o.word pair.1) →
    Ensures (Ready o l loops (pairs.map (·.1) ++ spare)) (declareVariables pairs scope) fun table s =>
      (table = ⟨scope.symbols ++ pairs.map (·.2)⟩ ∧ (pairs.map fun pair => o.word pair.1).Nodup ∧
        ∀ pair ∈ pairs, scope.contains (o.word pair.1) = false ∧ ¬ o.Known loops (o.word pair.1)) ∧
        Ready o l loops spare s
  | [], _, _ => .pure fun s ready => ⟨⟨by simp, List.nodup_nil, nofun⟩, ready⟩
  | (token, symbol) :: rest, scope, named => by
    obtain ⟨own, others⟩ := List.forall_mem_cons.mp named
    have own : symbol.name = o.word token := own
    refine .known (fun _ => rfl) (fun s ready => ready.word token) (.bind .get fun st =>
      .ite (fun _ => .never (.bind (never_fail _ _) _))
      fun free => ?_)
    obtain ⟨fresh, untaken⟩ : scope.contains (o.word token) = false ∧ isTaken st (o.word token) = false := by
      simpa using free
    refine .consider (fun s => ¬ o.Known loops (o.word token) ∧
      Ready o l loops (token :: (rest.map (·.1) ++ spare)) s) ?_ (.given fun unknown => ?_)
    · rintro s ⟨rfl, ready⟩
      exact ⟨ready.free sighted untaken, ready⟩
    refine .bind (m := fun _ s => ∃ t, Ready o l loops (token :: (rest.map (·.1) ++ spare)) t ∧
      s = t.onTokens (·.setKind token .symbolName))
      (.modify fun s ready => ⟨s, ready, rfl⟩) fun _ => ?_
    refine .bind (m := fun _ => Ready o l loops (rest.map (·.1) ++ spare)) (.modify ?_) fun _ => ?_
    · rintro _ ⟨s, ready, rfl⟩
      exact ready.variable own
    · refine .weaken (declareVariables_meant sighted rest (scope.insert symbol) others)
        fun table s ⟨⟨same, once, unlike⟩, ready⟩ => ?_
      rw [insert_fresh (own ▸ fresh)] at same unlike
      have apart (pair : Handle × Symbol) (member : pair ∈ rest) :
          scope.contains (o.word pair.1) = false ∧ o.word token ≠ o.word pair.1 := by
        have absent := (unlike pair member).1
        simp only [SymbolTable.contains, SymbolTable.lookup?, List.find?_append] at absent ⊢
        simpa [own] using absent
      refine ⟨⟨by simp [same], ?_, ?_⟩, ready⟩
      · refine List.nodup_cons.mpr ⟨fun member => ?_, once⟩
        obtain ⟨pair, inside, equal⟩ := List.mem_map.mp member
        exact (apart pair inside).2 equal.symm
      · exact List.forall_mem_cons.mpr ⟨⟨fresh, unknown⟩, fun pair member =>
          ⟨(apart pair member).1, (unlike pair member).2⟩⟩

section

variable {self : Readers}
    (readers : ∀ {loops spare} level, Ensures (Ready o l loops spare) (self level) (Meant o l loops spare))
include readers

private theorem range_meant : Ensures (Ready o l loops spare)
    (range self) fun e s => e.type = .integer ∧ Meant o l loops spare e s := by
  refine .bind (expect_passed _) fun opening => .meant (readers _) fun low fineLow =>
    .bind (expect_passed _) fun dots => ?_
  refine .meant (readers _) fun high fineHigh => .bind (expect_passed _) fun closing => ?_
  exact .weaken (rangeOf_meant opening dots closing fineLow fineHigh) fun e s ⟨same, meant⟩ => ⟨same ▸ rfl, meant⟩

private theorem parenthesized_meant : Ensures (Ready o l loops spare) (parenthesized self) (Meant o l loops spare) := by
  refine .bind (expect_kinded _) fun opening => .skip (fun _ => rfl) fun tokens => ?_
  refine .consider _ (fun s known => known.2) (.bind breakAfter_ready fun _ =>
    .consider _ (fun s ready => ready.drop) ?_)
  refine .meant (readers _) fun inner fine => .bind (expect_passed _) fun closing => ?_
  exact pure_meant ⟨rfl, fun _ => rfl⟩ ⟨unspoken, fine.type, trivial⟩
    (by simp [Expr.placed, Expr.sitesBelow, Expr.children, fine])

/-! ### Quantifiers and loops -/

private theorem quantifier_meant : Ensures (Ready o l loops spare) (quantifier self) fun e s =>
    o.Fine ⟨loops, false⟩ e ∧ Counts e s ∧ Ready o l loops spare s := by
  have word (kind : AtomKind) (quantifies : kind = .all ∨ kind = .any ∨ kind = .none) (token : Handle) :
      Ensures (Ready o l loops spare) (pure (.atom .integer kind token) : Parse Expr) fun e s =>
        o.Fine ⟨loops, false⟩ e ∧ Counts e s ∧ Ready o l loops spare s := by
    refine .pure fun s ready => ⟨.node ⟨?_, ?_, trivial⟩ (by simp [Expr.placed, Expr.children]),
      .inl (.inr (by simp [Expr.type])), ready⟩
    · rcases quantifies with rfl | rfl | rfl <;> exact unspoken
    · rcases quantifies with rfl | rfl | rfl <;> rfl
  refine .skip (fun _ => rfl) fun next => ?_
  split
  · exact .bind advance_passed fun token => word _ (.inl rfl) token
  · exact .bind advance_passed fun token => word _ (.inr (.inl rfl)) token
  · exact .bind advance_passed fun token => word _ (.inr (.inr rfl)) token
  · refine .meant (readers _) fun e fine => .skip (fun _ => rfl) fun next => .ite (fun _ => ?_) fun _ => ?_
    · exact .weaken (percentage_meant fine) fun e s done => ⟨done.2.fine, .inl done.1, done.2.ready⟩
    · refine .look (fun _ => rfl) fun next => ?_
      cases next with
      | some next =>
        exact .consider _ (fun s seen => seen.2) (.operand fun accepted => .pure fun s ready =>
          ⟨fine, .inl accepted, ready⟩)
      | none => exact .pure fun s known => ⟨fine, .inr (by simpa using known.1), known.2⟩

private theorem ofRest_meant (sighted : Sighted o l) {quantifier : Expr} (fine : o.Fine ⟨loops, false⟩ quantifier) :
    Ensures (fun s => Counts quantifier s ∧ Ready o l loops spare s) (ofRest self quantifier)
    (Meant o l loops spare) := by
  refine .bind Counts.expect fun of_ => .given fun counts =>
    .consider (Ready o l loops spare) (fun s known => known.2.drop) ?_
  refine .bind (stringSet_meant sighted) fun members => .given fun chosen => .skip (fun _ => rfl) fun next => ?_
  split
  · refine .bind advance_passed fun keyword => .meant (readers _) fun anchor anchored => .operand fun accepted => ?_
    exact pure_meant ⟨rfl, fun _ => rfl⟩ ⟨unspoken, rfl, counts, accepted⟩
      (by simp [Expr.placed, Expr.sitesBelow, Expr.children, fine, chosen, anchored])
  · refine .bind advance_passed fun keyword => .bind (range_meant readers) fun anchor => .given fun whole => ?_
    refine .pure fun s meant => .node meant.ready ⟨rfl, fun _ => rfl⟩ ⟨unspoken, rfl, counts, .inr (by simp [whole])⟩ ?_
    simp [Expr.placed, Expr.sitesBelow, Expr.children, fine, chosen, meant.fine]
  · exact pure_meant ⟨rfl, fun _ => rfl⟩ ⟨unspoken, rfl, counts⟩
      (by simp [Expr.placed, Expr.sitesBelow, Expr.children, fine, chosen])

/-- The elements of a set that a loop goes through are all of one kind. -/
def Suited (iterable : Expr) : Prop := ∀ type opening elements closing, iterable = .set type opening elements closing →
  (∀ element ∈ elements, element.type.Among [.integer]) ∨ ∀ element ∈ elements, element.type.Among [.string]

omit readers in
private theorem elements_meant {first : Expr} {others : List Expr} (opening : Handle)
    (fine : o.Fine ⟨loops, false⟩ first)
    (fineOthers : ∀ e ∈ others, o.Fine ⟨loops, false⟩ e) : Ensures (Ready o l loops spare) (do
      let closing ← expect .closeParen
      let expected := if first.type == .string then OperandClass.string else .integer
      (first :: others).forM fun element => checkOperand opening element expected .right
      return Expr.set first.type opening (first :: others) closing) fun e s =>
        Suited e ∧ Meant o l loops spare e s := by
  refine .bind (expect_passed _) fun closing => ?_
  have checked (expected : OperandClass) : ∀ elements : List Expr, Ensures (Ready o l loops spare)
      (elements.forM fun element => checkOperand opening element expected .right) fun _ s =>
        (∀ element ∈ elements, element.type.Among expected.types) ∧ Ready o l loops spare s := by
    intro elements
    induction elements with
    | nil => exact .pure fun s ready => ⟨nofun, ready⟩
    | cons element rest ih =>
      refine .operand fun accepted => .weaken ih fun _ s ⟨all, ready⟩ => ⟨?_, ready⟩
      exact List.forall_mem_cons.mpr ⟨accepted, all⟩
  refine .bind (checked _ _) fun _ => .given fun accepted => .pure fun s ready =>
    ⟨?_, .node ready ⟨rfl, fun _ => rfl⟩ ⟨unspoken, ?_, trivial⟩
    (fine_below (List.forall_mem_cons.mpr ⟨fine, fineOthers⟩) rfl)⟩
  · rintro _ _ _ _ ⟨⟩
    split_ifs at accepted
    · exact .inr accepted
    · exact .inl accepted
  · show first.type = o.typeOf (o.tables loops) _
    simp [Outlook.typeOf, Outlook.typesOf, fine.type]

private theorem iterable_meant : Ensures (Ready o l loops spare)
    (iterable self) fun e s => Suited e ∧ Meant o l loops spare e s := by
  refine .skip (fun _ => rfl) fun next => .ite (fun _ => ?_) fun _ => ?_
  · refine .bind advance_passed fun opening => .meant (readers _) fun first fine =>
      .bind (accept_passed _) fun dots => ?_
    cases dots with
    | some dots =>
      refine .meant (readers _) fun high fineHigh => .bind (expect_passed _) fun closing => ?_
      exact .weaken (rangeOf_meant opening dots closing fine fineHigh) fun e s ⟨same, meant⟩ =>
        ⟨by simp [Suited, same], meant⟩
    | none =>
      refine .bind (accept_passed _) fun comma => ?_
      cases comma with
      | none => exact elements_meant opening fine nofun
      | some comma =>
        refine .skip (fun _ => rfl) fun bound => .bind (separated_meant (readers _) bound) fun others => .given
          fun fineOthers => ?_
        exact elements_meant opening fine fineOthers
  · refine .bind (readers _) fun e => .look (fun _ => rfl) fun symbol => .ite (fun holds => .pure ?_) fun _ => ?_
    · rintro s ⟨same, meant⟩
      refine ⟨fun type opening elements closing set => ?_, meant⟩
      subst set
      simp [← same, symbolIn?] at holds
    · exact .skip (fun _ => rfl) fun _ => .never (never_fail _ _)

omit readers in
private theorem words_ready {separator kind : TokenKind} : ∀ bound spare,
    Ensures (Ready o l loops spare)
    (separated separator (expect kind) bound) fun words => Ready o l loops (words ++ spare)
  | 0, spare => .bind (expect_kinded kind) fun _ => .pure fun _ known => known.2
  | bound + 1, spare => by
    refine .bind (expect_kinded kind) fun first =>
      .consider _ (fun s known => known.2) (.bind (accept_passed _) fun next => ?_)
    cases next with
    | none => exact .pure fun _ ready => ready
    | some _ =>
      refine .bind (words_ready bound (first :: spare)) fun words => .pure fun s ready => ?_
      exact { ready with linking := ready.linking.imp fun _ link => link.shuffle List.perm_middle }

omit readers in
/-- A loop has variables, so its quantifier counts. -/
theorem Counts.words {quantifier : Expr} {separator kind : TokenKind} (bound : Nat) :
    Ensures (fun s => Counts quantifier s ∧ Ready o l loops spare s) (separated separator (Grammar.expect kind) bound)
    fun words s => quantifier.type.Among [.integer] ∧ Ready o l loops (words ++ spare) s := by
  rintro s words s' done ⟨counts, ready⟩
  refine ⟨counts.resolve_right ?_, words_ready bound spare s words s' done ready⟩
  cases bound <;>
  · obtain ⟨first, _, found, _⟩ := bind_done done
    exact expect_some found

omit readers in
private theorem mapM_textOf (vars : List Handle) (s : State) :
    (vars.mapM textOf : Parse (List String)) s = .ok (vars.map s.source.tokens.text, s) := by
  induction vars with
  | nil => rfl
  | cons var rest ih =>
    rw [List.mapM_cons]
    show ((rest.mapM textOf : Parse (List String)) s >>= fun words =>
      Except.ok (s.source.tokens.text var :: words.1, words.2)) = _
    rw [ih]
    rfl

private theorem loopIn_meant (sighted : Sighted o l) (for_ : Handle) {quantifier : Expr}
    (fine : o.Fine ⟨loops, false⟩ quantifier) : Ensures (fun s => Counts quantifier s ∧ Ready o l loops spare s)
    (loopIn self for_ quantifier) (Meant o l loops spare) := by
  refine .skip (fun _ => rfl) fun bound => .bind (Counts.words bound) fun vars => .given fun counts => ?_
  refine .bind (expect_passed _) fun in_ => .bind (iterable_meant readers) fun iterable => .given fun suited => ?_
  refine .known (mapM_textOf vars) (fun s meant => List.map_congr_left fun var _ => meant.ready.word var) ?_
  refine .known (fun _ => rfl) (fun s meant => meant.tied.symbol) ?_
  refine .consider (fun s => o.Fine ⟨loops, false⟩ iterable ∧ Ready o l loops (vars ++ spare) s) (fun s meant =>
    ⟨meant.fine, meant.ready⟩)
    (.given fun fineIterable => ?_)
  have variables_ := @loopVariables_eq o (o.tables loops) iterable fineIterable.type vars
  cases asked : loopVariables (o.symbolOf (o.tables loops) iterable) iterable (vars.map o.word) with
  | mk expected symbols =>
  rw [asked] at variables_
  refine .ite (fun _ => .never (.bind (never_fail _ _) _)) fun count => ?_
  have held : symbols = vars.mapIdx fun place var => o.heldBy (o.tables loops) iterable place (o.word var) :=
    variables_ (by simpa using count)
  subst held
  set symbols := vars.mapIdx fun place var => o.heldBy (o.tables loops) iterable place (o.word var) with symbols_eq
  have pairs : (vars.zip symbols).map (·.1) = vars := List.map_fst_zip (by simp [symbols_eq])
  have named (pair : Handle × Symbol) (member : pair ∈ vars.zip symbols) : pair.2.name = o.word pair.1 := by
    obtain ⟨place, small, rfl⟩ := List.mem_iff_getElem.mp member
    simp [symbols_eq]
  have declared := @declareVariables_meant o l loops spare sighted (vars.zip symbols) {} named
  rw [pairs] at declared
  refine .bind declared fun scope => .given fun ⟨same, once, unlike⟩ => .bind (expect_passed _) fun colon =>
    .bind .get fun st => ?_
  have table : scope = ⟨symbols⟩ := by simpa [List.map_snd_zip, symbols_eq] using same
  have once : (vars.map o.word).Nodup := by
    rw [← pairs, List.map_map]
    exact once
  have unlike (var : Handle) (member : var ∈ vars) : ¬ o.Known loops (o.word var) := by
    rw [← pairs] at member
    obtain ⟨pair, inside, rfl⟩ := List.mem_map.mp member
    exact (unlike pair inside).2
  refine .bind (m := fun _ s => st.scopes = o.tables loops ∧ Ready o l (.through vars iterable :: loops) spare s)
    (.modify ?_) fun _ => .given fun outer => ?_
  · rintro s ⟨rfl, ready⟩
    exact ⟨ready.tables, ready.goTo (show _ = o.tables
      (.through vars iterable :: loops) by rw [table, ready.tables]; rfl) ready.depth⟩
  refine .bind (parenthesized_meant readers) fun body => ?_
  refine .bind (m := fun _ s => o.Fine ⟨.through vars iterable :: loops, false⟩ body ∧ Ready o l loops spare s)
    (.modify fun s meant => ⟨meant.fine, meant.ready.goTo outer meant.ready.depth⟩) fun _ => .given fun fineBody => ?_
  exact pure_meant ⟨rfl, fun _ => rfl⟩ ⟨⟨once, unlike⟩, rfl, counts, suited⟩
    (by simp [Expr.placed, Expr.sitesBelow, Expr.children, fine, fineIterable, fineBody])

private theorem loopOf_meant (sighted : Sighted o l) (for_ : Handle) {quantifier : Expr}
    (fine : o.Fine ⟨loops, false⟩ quantifier) : Ensures (fun s => Counts quantifier s ∧ Ready o l loops spare s)
    (loopOf self for_ quantifier) (Meant o l loops spare) := by
  refine .bind Counts.expect fun of_ => .given fun counts =>
    .consider (Ready o l loops spare) (fun s known => known.2.drop) ?_
  refine .bind (stringSet_meant sighted) fun members => .given fun chosen => .bind (expect_passed _) fun colon => ?_
  refine .bind (m := fun _ => Ready o l (.strings :: loops) spare)
    (.modify fun s ready => ready.goTo ready.tables (congrArg (· + 1) ready.depth)) fun _ => ?_
  refine .bind (parenthesized_meant readers) fun body => ?_
  refine .bind (m := fun _ s => o.Fine ⟨.strings :: loops, false⟩ body ∧ Ready o l loops spare s)
    (.modify fun s meant => ⟨meant.fine, meant.ready.goTo meant.ready.tables (congrArg (· - 1) meant.ready.depth)⟩)
      fun _ => .given fun fineBody => ?_
  exact pure_meant ⟨rfl, fun _ => rfl⟩ ⟨unspoken, rfl, counts⟩
    (by simp [Expr.placed, Expr.sitesBelow, Expr.children, fine, chosen, fineBody])

private theorem loop_meant (sighted : Sighted o l) : Ensures (Ready o l loops spare) (loop self)
    (Meant o l loops spare) := by
  refine .bind (expect_passed _) fun for_ => .bind (quantifier_meant readers) fun quantifier => .given fun fine => ?_
  refine .skip (fun _ => rfl) fun next => .ite (fun _ => ?_) fun _ => ?_
  · exact loopOf_meant readers sighted for_ fine
  · exact loopIn_meant readers sighted for_ fine

/-! ### Single terms -/

omit readers in
private theorem reference_bound {id : Handle} (names : o.NamesString loops (o.word id)) :
    ∀ token, some id = some token → o.NamesString loops (o.word token) := by
  rintro _ ⟨⟩
  exact names

private theorem stringTerm_meant (sighted : Sighted o l) : Ensures (Ready o l loops spare) (stringTerm self)
    (Meant o l loops spare) := by
  refine .bind (expect_kinded _) fun id => .bind (stringReference_named sighted (by simp [Refers]))
    fun _ => .given fun names => ?_
  refine .skip (fun _ => rfl) fun next => ?_
  split
  · refine .bind advance_passed fun at_ => .meant (readers _) fun offset fine => .operand fun accepted => ?_
    exact pure_meant ⟨rfl, fun _ => rfl⟩ ⟨reference_bound names, rfl, accepted⟩
      (by simp [Expr.placed, Expr.sitesBelow, Expr.children, fine])
  · refine .bind advance_passed fun in_ => .bind (range_meant readers) fun bounds => .given fun whole => ?_
    exact .pure fun s meant => .node meant.ready ⟨rfl, fun _ => rfl⟩ ⟨reference_bound names, rfl, trivial⟩
      (by simp [Expr.placed, Expr.sitesBelow, Expr.children, meant.fine])
  · exact pure_meant ⟨rfl, fun _ => rfl⟩ ⟨reference_bound names, rfl, trivial⟩ (by simp [Expr.placed, Expr.children])

private theorem countTerm_meant (sighted : Sighted o l) : Ensures (Ready o l loops spare) (countTerm self)
    (Meant o l loops spare) := by
  refine .bind (expect_kinded _) fun id => .bind (stringReference_named sighted (by simp [Refers]))
    fun _ => .given fun names => ?_
  refine .bind (accept_passed _) fun in_ => ?_
  cases in_ with
  | some in_ =>
    refine .bind (range_meant readers) fun bounds => .given fun whole => ?_
    exact .pure fun s meant => .node meant.ready ⟨rfl, fun _ => rfl⟩ ⟨reference_bound names, rfl, trivial⟩
      (by simp [Expr.placed, Expr.sitesBelow, Expr.children, meant.fine])
  | none =>
    exact pure_meant ⟨rfl, fun _ => rfl⟩ ⟨reference_bound names, rfl, trivial⟩ (by simp [Expr.placed, Expr.children])

private theorem indexedTerm_meant (sighted : Sighted o l) (measured : Bool) :
    Ensures (Ready o l loops spare) (indexedTerm self measured) (Meant o l loops spare) := by
  refine .bind (expect_kinded _) fun id => .bind (stringReference_named sighted (by cases measured <;> simp [Refers]))
    fun _ =>
    .given fun names => .bind (accept_passed _) fun opening => ?_
  cases opening with
  | some opening =>
    refine .meant (readers _) fun index fine => .operand fun accepted => .bind (expect_passed _) fun closing => ?_
    exact pure_meant ⟨rfl, fun _ => rfl⟩ ⟨reference_bound names, rfl, accepted⟩
      (by simp [Expr.placed, Expr.sitesBelow, Expr.children, fine])
  | none =>
    cases measured with
    | true =>
      exact pure_meant ⟨rfl, fun _ => rfl⟩ ⟨reference_bound names, rfl, trivial⟩ (by simp [Expr.placed, Expr.children])
    | false =>
      exact pure_meant ⟨rfl, fun _ => rfl⟩ ⟨reference_bound names, rfl, trivial⟩ (by simp [Expr.placed, Expr.children])

private theorem integerFunction_meant {function : Handle} : Ensures (fun s => Kinded .identifier function s ∧
    Ready o l loops (function :: spare) s) (integerFunction self function) (Meant o l loops spare) := by
  refine .bind (refine_kinded (fun _ => rfl) (by decide))
    fun _ => .consider (Ready o l loops spare) (fun s known => known.2.drop) ?_
  refine .bind (expect_passed _) fun opening => .meant (readers _) fun arg fine => .operand fun accepted =>
    .bind (expect_passed _) fun closing => ?_
  exact pure_meant ⟨rfl, fun _ => rfl⟩ ⟨unspoken, rfl, accepted⟩
    (by simp [Expr.placed, Expr.sitesBelow, Expr.children, fine])

private theorem term_meant (sighted : Sighted o l) : Ensures (Ready o l loops spare) (term self)
    (Meant o l loops spare) := by
  have leaf {pre : State → Prop} {next : Handle → Parse Expr} (forget : ∀ s, pre s → Ready o l loops spare s)
      (rest : ∀ token, Ensures (Ready o l loops spare) (next token) (Meant o l loops spare)) :
      Ensures pre (advance >>= next) (Meant o l loops spare) := .consider _ forget (.bind advance_passed rest)
  refine .look (fun _ => rfl) fun next => ?_
  split
  · exact leaf (fun s seen => seen.2) fun token =>
      pure_meant ⟨rfl, fun _ => rfl⟩ ⟨unspoken, rfl, trivial⟩ (by simp [Expr.placed, Expr.children])
  · exact leaf (fun s seen => seen.2) fun token =>
      pure_meant ⟨rfl, fun _ => rfl⟩ ⟨unspoken, rfl, trivial⟩ (by simp [Expr.placed, Expr.children])
  · exact leaf (fun s seen => seen.2) fun token =>
      pure_meant ⟨rfl, fun _ => rfl⟩ ⟨unspoken, rfl, trivial⟩ (by simp [Expr.placed, Expr.children])
  · exact leaf (fun s seen => seen.2) fun token =>
      pure_meant ⟨rfl, fun _ => rfl⟩ ⟨unspoken, rfl, trivial⟩ (by simp [Expr.placed, Expr.children])
  · exact leaf (fun s seen => seen.2) fun token =>
      pure_meant ⟨rfl, fun _ => rfl⟩ ⟨unspoken, rfl, trivial⟩ (by simp [Expr.placed, Expr.children])
  · refine leaf (fun s seen => seen.2) fun token => .bind (checkEscapes_passed token) fun _ => ?_
    exact pure_meant ⟨rfl, fun _ => rfl⟩ ⟨unspoken, rfl, trivial⟩ (by simp [Expr.placed, Expr.children])
  · refine leaf (fun s seen => seen.2) fun token => .bind (readRegexp_passed token) fun regexp => ?_
    exact pure_meant ⟨rfl, fun _ => rfl⟩ ⟨unspoken, rfl, trivial⟩ (by simp [Expr.placed, Expr.children])
  · exact .consider _ (fun s seen => seen.2) (stringTerm_meant readers sighted)
  · exact .consider _ (fun s seen => seen.2) (countTerm_meant readers sighted)
  · exact .consider _ (fun s seen => seen.2) (indexedTerm_meant readers sighted false)
  · exact .consider _ (fun s seen => seen.2) (indexedTerm_meant readers sighted true)
  · exact .consider _ (fun s seen => seen.2) (parenthesized_meant readers)
  · refine .bind advance_kinded fun token => .skip (fun _ => rfl) fun text => .skip (fun _ => rfl) fun next => ?_
    exact .ite (fun _ => integerFunction_meant readers) fun _ => name_meant sighted
  · exact .never (never_unexpected _)

/-! ### Fields, elements and calls -/

omit readers in
private theorem fieldOf_meant {structure_ : Expr} (fine : o.Fine ⟨loops, false⟩ structure_) :
    Ensures (fun s => Tied o loops structure_ s ∧ Ready o l loops spare s) (fieldOf structure_)
    (Meant o l loops spare) := by
  refine .bind (.tied (expect_calm _) (expect_passed _)) fun dot => .bind (.tied (expect_calm _) (expect_kinded _))
    fun member => ?_
  refine .known (fun _ => rfl) (fun s known => known.1.symbol) (.consider _ (fun s known => known.2) ?_)
  split
  next parent found =>
    refine .ite (fun _ => .known (fun _ => rfl) (fun s known => known.2.word member) ?_) fun _ => .skip (fun _ => rfl)
      fun _ => .never (never_fail _ _)
    split
    next symbol held =>
      have named : symbol.name = o.word member := by simpa [Symbol.attribute?] using List.find?_some held
      refine .bind (refine_kinded (fun _ => rfl) (by decide)) fun _ => .bind (setSymbol_ensures named) fun _ => .pure ?_
      rintro s ⟨ready, a, stored, holds⟩
      have symbolOf : o.symbolOf (o.tables loops) (.field symbol.type structure_ dot member) = some symbol := by
        simp [Outlook.symbolOf, found, held]
      refine ⟨.node ⟨unspoken, ?_, parent, found, by simp [held]⟩
        (by simp [Expr.placed, Expr.sitesBelow, Expr.children, fine]), ready.drop,
        by simp [symbolIn?, stored, holds, symbolOf], by simpa [symbolTokens] using ready.unread⟩
      show symbol.type = o.typeOf (o.tables loops) _
      simp [Outlook.typeOf, symbolOf]
    next => exact .never (never_fail _ _)
  next => exact .skip (fun _ => rfl) fun _ => .never (never_fail _ _)

variable (calm : ∀ {free} level, Calm free (self level) fun _ => [])
include calm

private theorem elementOf_meant {array : Expr} (fine : o.Fine ⟨loops, false⟩ array) :
    Ensures (fun s => Tied o loops array s ∧ Ready o l loops spare s) (elementOf self array)
    (Meant o l loops spare) := by
  refine .bind (.tied (expect_calm _) (expect_passed _)) fun opening =>
    .known (fun _ => rfl) (fun s known => known.1.symbol) ?_
  have rest {container : Symbol} (found : o.symbolOf (o.tables loops) array = some container)
    (expected : OperandClass) (name : String)
      (fits : ∀ index : Expr, index.type.Among expected.types →
        container.isArray ∧ index.type.Among [.integer] ∨ container.isDictionary ∧ index.type.Among [.string]) :
      Ensures (fun s => Tied o loops array s ∧ Ready o l loops spare s) (do
        let index ← self .disjunction
        if !expected.accepts index.type then
          let tokens ← tokens
          fail opening (.invalidAccess (array.text tokens ++ "[" ++ index.text tokens ++ "]")
            ("a valid index for " ++ name))
        let closing ← expect .closeBracket
        return Expr.index (((o.symbolOf
          (o.tables loops) array).bind Symbol.elementType?).getD .undefined) array opening index closing)
        (Meant o l loops spare) := by
    refine .bind (.tied (calm _) (readers _)) fun index => .ite (fun _ => .skip (fun _ => rfl) fun _ => ?_)
      fun accepted => ?_
    · exact .never ((never_fail _ _).bind _)
    · refine .consider (fun s => o.Fine ⟨loops, false⟩ index ∧ Tied o loops array s ∧ Ready o l loops spare s)
        (fun s known => ⟨known.2.fine, known.1, known.2.ready⟩) (.given fun fineIndex => ?_)
      refine .bind (.tied (expect_calm _) (expect_passed _)) fun closing => .pure fun s ⟨tied, ready⟩ => ?_
      have accepted : index.type.Among expected.types := (OperandClass.accepts_iff _ _).mp (by simpa using accepted)
      refine ⟨.node ⟨unspoken, rfl, container, found, fits index accepted⟩ ?_, ready, ?_, tied.read⟩
      · simp [Expr.placed, Expr.sitesBelow, Expr.children, fine, fineIndex]
      · simp [symbolIn?, Outlook.symbolOf, tied.symbol]
  cases found : o.symbolOf (o.tables loops) array with
  | none => exact .skip (fun _ => rfl) fun _ => .never ((never_fail _ _).bind _)
  | some container =>
    rw [found] at rest
    refine .ite (fun holds => rest rfl _ _ fun index accepted => .inl ⟨holds, accepted⟩)
      fun _ => .ite (fun holds => ?_) fun _ => ?_
    · exact rest rfl _ _ fun index accepted => .inr ⟨holds, accepted⟩
    · exact .skip (fun _ => rfl) fun _ => .never ((never_fail _ _).bind _)

omit calm in
private theorem arguments_meant : Ensures (Ready o l loops spare) (arguments self) fun args s =>
    (∀ arg ∈ args, o.Fine ⟨loops, false⟩ arg) ∧ Ready o l loops spare s := by
  refine .skip (fun _ => rfl) fun next => .ite (fun _ => .pure fun s ready => ⟨nofun, ready⟩) fun _ => ?_
  exact .skip (fun _ => rfl) fun bound => separated_meant (readers _) bound

private theorem callOf_meant {function : Expr} (fine : o.Fine ⟨loops, false⟩ function) :
    Ensures (fun s => Tied o loops function s ∧ Ready o l loops spare s) (callOf self function)
    (Meant o l loops spare) := by
  refine .bind (.tied (expect_calm _) (expect_passed _)) fun opening =>
    .bind (.tied (arguments_calm calm) (arguments_meant readers)) fun args => ?_
  refine .consider (fun s => (∀ arg ∈ args, o.Fine ⟨loops, false⟩ arg) ∧ Tied o loops function s ∧
    Ready o l loops spare s)
    (fun s known => ⟨known.2.1, known.1, known.2.2⟩) (.given fun fineArgs => ?_)
  refine .bind (.tied (expect_calm _) (expect_passed _)) fun closing =>
    .known (fun _ => rfl) (fun s known => known.1.symbol) ?_
  refine .consider _ (fun s known => known.2) ?_
  dsimp only
  have types : o.typesOf (o.tables loops) args = args.map Expr.type := by
    rw [Outlook.typesOf_eq]
    exact List.map_congr_left fun arg member => (fineArgs arg member).type.symm
  split
  next signature found =>
    cases symbol : o.symbolOf (o.tables loops) function with
    | none => simp [symbol] at found
    | some holder =>
      rw [symbol] at found
      have found : holder.overloads.find? (·.accepts (args.map Expr.type)) = some signature := found
      have takes : signature.Takes (args.map Expr.type) := by simpa [Signature.accepts_iff] using List.find?_some found
      have accepts : (fun s : Signature => s.accepts (args.map Expr.type)) =
          fun s => decide (s.Takes (args.map Expr.type)) :=
        funext fun s => by rw [Bool.eq_iff_iff, Signature.accepts_iff, decide_eq_true_iff]
      refine pure_meant ⟨rfl, fun _ => rfl⟩ ⟨unspoken, ?_, holder, symbol, signature,
        List.mem_of_find?_eq_some found, takes⟩
        (fine_below (List.forall_mem_cons.mpr ⟨fine, fineArgs⟩) rfl)
      show signature.result = o.typeOf (o.tables loops) _
      rw [accepts] at found
      simp [Outlook.typeOf, types, symbol, found]
  next => exact .skip (fun _ => rfl) fun _ => .never (never_fail _ _)

private theorem accesses_meant (sighted : Sighted o l) : ∀ bound (e : Expr), o.Fine ⟨loops, false⟩ e →
    Ensures (fun s => Tied o loops e s ∧ Ready o l loops spare s) (accesses self bound e) (Meant o l loops spare)
  | 0, e, fine => .pure fun s ⟨tied, ready⟩ => ⟨fine, ready, tied⟩
  | bound + 1, e, fine => by
    have next {step : Parse Expr} (meant : Ensures (fun s => Tied o loops e s ∧ Ready o l loops spare s) step
      (Meant o l loops spare)) :
        Ensures (fun s => Tied o loops e s ∧ Ready o l loops spare s) (step >>= accesses self bound)
          (Meant o l loops spare) := by
      refine .bind meant fun e' => .consider (fun s =>
        o.Fine ⟨loops, false⟩ e' ∧ Tied o loops e' s ∧ Ready o l loops spare s)
        (fun s meant => ⟨meant.fine, meant.tied, meant.ready⟩) (.given fun fine' =>
          accesses_meant sighted bound e' fine')
    refine .skip (fun _ => rfl) fun kind => ?_
    split
    · exact next (fieldOf_meant fine)
    · exact next (elementOf_meant readers calm fine)
    · refine .skip (fun _ => rfl) fun symbol => .ite (fun _ => ?_) fun _ => ?_
      · exact next (callOf_meant readers calm fine)
      · exact .pure fun s ⟨tied, ready⟩ => ⟨fine, ready, tied⟩
    · exact .pure fun s ⟨tied, ready⟩ => ⟨fine, ready, tied⟩

/-! ### Levels -/

omit readers calm in
private theorem operator_passed {pre : State → Prop} (level : Level) : Ensures pre (operator? level) fun _ => pre := by
  have none : Ensures pre (pure none : Parse (Option BinaryOp)) fun _ => pre := .pure fun _ before => before
  refine .skip (fun _ => rfl) fun next => ?_
  split
  · refine .ite (fun _ => none) fun _ => .skip (fun _ => rfl) fun _ => .ite (fun _ => none) fun _ => ?_
    exact .pure fun _ before => before
  · exact none

omit calm in
private theorem operations_meant (level : Level) : ∀ bound (left : Expr), o.Fine ⟨loops, false⟩ left →
    Ensures (fun s => Tied o loops left s ∧ Ready o l loops spare s) (operations self level bound left)
    (Meant o l loops spare)
  | 0, left, fine => .pure fun s ⟨tied, ready⟩ => ⟨fine, ready, tied⟩
  | bound + 1, left, fine => by
    refine .bind (operator_passed level) fun op => ?_
    cases op with
    | none => exact .pure fun s ⟨tied, ready⟩ => ⟨fine, ready, tied⟩
    | some op =>
      refine .consider _ (fun s known => known.2) (.bind advance_passed fun token =>
        .meant (readers _) fun right fineRight => ?_)
      refine .bind (binary_meant token fine fineRight) fun e => ?_
      refine .consider (fun s => o.Fine ⟨loops, false⟩ e ∧ Tied o loops e s ∧ Ready o l loops spare s)
        (fun s meant => ⟨meant.fine, meant.tied, meant.ready⟩) (.given fun fine' =>
          operations_meant level bound e fine')

omit calm in
private theorem negation_meant : Ensures (Ready o l loops spare) (negation self) (Meant o l loops spare) := by
  refine .skip (fun _ => rfl) fun next => ?_
  split
  · exact .bind advance_passed fun token => .meant (readers _) fun operand fine => unary_meant token fine
  · exact .bind advance_passed fun token => .meant (readers _) fun operand fine => unary_meant token fine
  · exact readers _

omit calm in
private theorem quantified_meant (sighted : Sighted o l) : Ensures (Ready o l loops spare) (quantified self)
    (Meant o l loops spare) := by
  refine .skip (fun _ => rfl) fun next => .skip (fun _ => rfl) fun second => ?_
  dsimp only
  refine .ite (fun _ => loop_meant readers sighted) fun _ => .ite (fun _ => ?_) fun _ => ?_
  · exact .bind (quantifier_meant readers) fun quantifier => .given fun fine => ofRest_meant readers sighted fine
  · refine .bind (readers _) fun e => .skip (fun _ => rfl) fun next => .skip (fun _ => rfl) fun second => ?_
    have parts (s : State) (meant : Meant o l loops spare e s) : o.Fine ⟨loops, false⟩ e ∧ Ready o l loops spare s :=
      ⟨meant.fine, meant.ready⟩
    refine .ite (fun _ => .consider _ parts (.given fun fine => ?_))
      fun _ => .ite (fun _ => .consider _ parts (.given fun fine => ?_)) fun _ => ?_
    · refine .bind (percentage_meant fine) fun share => ?_
      refine .consider (fun s => o.Fine ⟨loops, false⟩ share ∧ Counts share s ∧ Ready o l loops spare s)
        (fun s ⟨counts, meant⟩ => ⟨meant.fine, .inl counts, meant.ready⟩) (.given fun fine =>
          ofRest_meant readers sighted fine)
    · refine .look (fun _ => rfl) fun next => ?_
      cases next with
      | some of_ =>
        refine .consider _ (fun s seen => seen.2) (.operand fun accepted => ?_)
        exact .consider _ (fun s ready => ⟨.inl accepted, ready⟩) (ofRest_meant readers sighted fine)
      | none =>
        exact .consider _ (fun s seen => ⟨.inr (by simpa using seen.1), seen.2⟩) (ofRest_meant readers sighted fine)
    · exact .pure fun _ meant => meant

omit calm in
private theorem signed_meant : Ensures (Ready o l loops spare) (signed self) (Meant o l loops spare) := by
  refine .look (fun _ => rfl) fun next => ?_
  split
  · refine .bind advance_kinded fun token => .bind (refine_kinded (fun _ => rfl) (by decide)) fun _ => ?_
    exact .consider (Ready o l loops spare) (fun s known => known.2.drop) (.meant (readers _) fun operand fine =>
      unary_meant token fine)
  · refine .consider _ (fun s seen => seen.2) (.bind advance_passed fun token => ?_)
    exact .meant (readers _) fun operand fine => unary_meant token fine
  · exact .consider _ (fun s seen => seen.2) (readers _)

private theorem levelRule_meant (sighted : Sighted o l) (level : Level) : Ensures (Ready o l loops spare)
    (levelRule self level) (Meant o l loops spare) := by
  unfold levelRule
  split
  · exact negation_meant readers
  · exact quantified_meant readers sighted
  · exact signed_meant readers
  · refine .bind (term_meant readers sighted) fun e => .skip (fun _ => rfl) fun bound => ?_
    exact .consider _ (fun s meant => ⟨meant.fine, meant.tied, meant.ready⟩) (.given fun fine =>
      accesses_meant readers calm sighted bound e fine)
  · refine .bind (readers _) fun left => .skip (fun _ => rfl) fun bound => ?_
    exact .consider _ (fun s meant => ⟨meant.fine, meant.tied, meant.ready⟩) (.given fun fine =>
      operations_meant readers _ bound left fine)

end

private theorem exprWithin_meant (sighted : Sighted o l) : ∀ depth {loops spare} level,
    Ensures (Ready o l loops spare) (exprWithin depth level) (Meant o l loops spare)
  | 0, _, _, _ => .never (never_unexpected _)
  | depth + 1, _, _, level => levelRule_meant (exprWithin_meant sighted depth) (exprWithin_calm depth) sighted level

theorem condition_meant (sighted : Sighted o l) : Ensures (Ready o l [] spare) condition (Meant o l [] spare) :=
  .skip (fun _ => rfl) fun _ => exprWithin_meant sighted _ _

end Grammar

end YaraRules
