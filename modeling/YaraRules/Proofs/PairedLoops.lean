import YaraRules.Proofs.PairedTerms

/-! Loops of conditions, read side by side. Both readings declare variables of the same
names and types. -/

namespace YaraRules.Grammar

variable {c : Pairing} {s t s' t' s'' t'' : State} {bound : Nat} {self self' : Readers} {used : List Handle}

theorem Abreast.iterable (abreast : Abreast c s t) (readers : ReadersFollow c bound self self')
    (room : 15 * t.source.rest.length + Level.access.rank ≤ bound) :
    Follows (Grammar.iterable self) (Grammar.iterable self') s t (ReadExpr c s t) := by
  unfold Grammar.iterable
  have room' : 15 * t.source.rest.length ≤ bound := by omega
  have container : Follows
      (self .access >>= fun e => symbolOf? e >>= fun symbol =>
        if symbol.any fun symbol => symbol.isArray || symbol.isDictionary then return e
        else Grammar.tokens >>= fun tokens => fail e.first (.invalidAccess (e.text tokens) "an array or dictionary"))
      (self' .access >>= fun e => symbolOf? e >>= fun symbol =>
        if symbol.any fun symbol => symbol.isArray || symbol.isDictionary then return e
        else Grammar.tokens >>= fun tokens => fail e.first (.invalidAccess (e.text tokens) "an array or dictionary"))
      s t (ReadExpr c s t) := by
    refine .bind (readers .access abreast room) ?_
    rintro e _ s₁ t₁ ⟨rfl, used, read, spells⟩
    refine read.abreast.symbolOf (spells.paired read) ?_
    split_ifs
    · exact .pure ⟨rfl, used, read, spells⟩
    · exact .of_fails ⟨_, rfl⟩
  refine abreast.peek ?_ fun _ => container
  by_cases seen : c.next s = some .openParen
  · simp only [seen, BEq.rfl, if_true]
    refine abreast.advance seen (by decide) fun opening s₁ t₁ opened held kind => ?_
    refine .bind (readers .bitOr opened.abreast (opened.deeper (by simp) room' .bitOr)) ?_
    rintro first _ s₂ t₂ ⟨rfl, used, read, spells⟩
    have before := opened.trans read
    refine read.abreast.accept (by decide) ?_ fun _ => ?_
    · intro dots s₃ t₃ dotted held' kind'
      have until_ := before.trans dotted
      refine .bind (readers .bitOr dotted.abreast (until_.deeper (by simp) room' .bitOr)) ?_
      rintro high _ s₄ t₄ ⟨rfl, used', read', spells'⟩
      refine read'.abreast.expect (by decide) fun closing s₅ t₅ closed held'' kind'' => ?_
      refine closed.abreast.rangeOf (spells.paired read) (spells'.paired read') ?_
      exact ⟨rfl, _, (until_.trans read').trans closed, .range (.fixed held opened.abreast kind rfl rfl) spells
        (.fixed held' dotted.abreast kind' rfl rfl) spells' (.fixed held'' closed.abreast kind'' rfl rfl)⟩
    · have finish : ∀ {inside : List Handle} {es es' : List Expr} {s' t' : State}, Advanced c s₁ t₁ s' t' inside →
          Items c .comma (ExprItem c) inside (first :: es) (first.mapHandles c.partner :: es') →
          Follows
            (do
              let closing ← Grammar.expect .closeParen
              (first :: es).forM fun e =>
                checkOperand opening e (if first.type == .string then .string else .integer) .right
              return .set first.type opening (first :: es) closing)
            (do
              let closing ← Grammar.expect .closeParen
              (first.mapHandles c.partner :: es').forM fun e => checkOperand (c.partner opening) e
                (if (first.mapHandles c.partner).type == .string then .string else .integer) .right
              return .set (first.mapHandles c.partner).type (c.partner opening)
                (first.mapHandles c.partner :: es') closing)
            s' t' (ReadExpr c s t) := by
        intro inside es es' s' t' read' items
        obtain ⟨same, listed, handles⟩ := items.exprs
        rw [first.type_mapHandles, same, Expr.mapHandlesAll_eq]
        refine read'.abreast.expect (by decide) fun closing s₃ t₃ closed held' kind' => ?_
        refine .checkAll ?_ c.partner (first :: es)
        rw [← Expr.mapHandlesAll_eq]
        exact .pure ⟨rfl, _, (opened.trans read').trans closed,
          .set (.fixed held opened.abreast kind rfl rfl) listed handles (.fixed held' closed.abreast kind' rfl rfl)⟩
      refine read.abreast.accept (by decide) ?_ fun _ => ?_
      · intro between s₃ t₃ taken held' kind'
        refine .step rfl rfl ?_
        refine .bind (Abreast.separated (by decide) (fun abreast _ few => (readers .bitOr abreast ?_).item) _ _
          taken.abreast (Nat.le_refl _) (Nat.le_refl _) (Nat.le_refl _) (Nat.le_refl _)) ?_
        · have deeper := (before.trans taken).deeper (by simp) room' .bitOr
          omega
        rintro others others' s₄ t₄ ⟨more, read', items⟩
        exact finish ((read.trans taken).trans read')
          (.more ⟨rfl, spells⟩ kind' (fun text fixed => held'.word taken.abreast kind' fixed) items)
      · exact finish read (.one ⟨rfl, spells⟩)
  · rw [if_neg (by simpa using seen), if_neg (by simpa using seen)]
    exact container

/-! ### Variables -/

private theorem elementVariable_name (container : Symbol) (name : String) :
    (elementVariable container name).name = name := by
  unfold elementVariable
  cases container.element? with
  | none => rfl
  | some element => cases element <;> rfl

private theorem loopVariables_names (container : Option Symbol) (iterable : Expr) (names : List String) :
    (loopVariables container iterable names).2.map Symbol.name <+: names := by
  have each (symbol : Symbol) (names : List String) : (names.map (elementVariable symbol)).map Symbol.name = names := by
    simp [Function.comp_def, elementVariable_name]
  have valued (type : ValueType) (names : List String) : (names.map (Symbol.value · type)).map Symbol.name = names := by
    simp [Function.comp_def, Symbol.name]
  unfold loopVariables
  cases container with
  | none =>
    simp only [valued]
    exact List.take_prefix 1 names
  | some symbol =>
    simp only
    split_ifs
    · have pair : names.take 1 ++ (names.drop 1).take 1 = names.take 2 := by
        match names with
        | [] => rfl
        | [_] => rfl
        | _ :: _ :: _ => rfl
      simp only [List.map_append, valued, each, pair]
      exact List.take_prefix 2 names
    · simp only [each]
      exact List.take_prefix 1 names

private theorem loopVariables_mapHandles (container : Option Symbol) (f : Handle → Handle) (iterable : Expr)
    (names : List String) :
    loopVariables container (iterable.mapHandles f) names = loopVariables container iterable names := by
  cases iterable <;> rfl

private theorem names_of_zip {word : Handle → String} : ∀ {vars : List Handle} {symbols : List Symbol},
    symbols.map Symbol.name <+: vars.map word → ∀ entry ∈ vars.zip symbols, entry.2.name = word entry.1
  | [], _, _, _, member => by simp at member
  | _ :: _, [], _, _, member => by simp at member
  | h :: vars, symbol :: symbols, named, entry, member => by
    rw [List.map_cons, List.map_cons, List.cons_prefix_cons] at named
    rcases List.mem_cons.mp member with rfl | later
    · exact named.1
    · exact names_of_zip named.2 entry later

private theorem firsts_of_zip : ∀ (vars : List Handle)
    (symbols : List Symbol), ((vars.zip symbols).map Prod.fst).Sublist vars
  | [], _ => by simp
  | _ :: _, [] => by simp
  | _ :: vars, _ :: symbols => by simpa using firsts_of_zip vars symbols

theorem Abreast.isTaken (abreast : Abreast c s t) (name : String) :
    Grammar.isTaken t name = Grammar.isTaken s name := by
  unfold Grammar.isTaken
  rw [abreast.scopes, abreast.ruleNames, abreast.global?]

theorem Held.touched {h : Handle} {changed : List Handle} (held : Held c s h) (touched : Touched c s t s' t' changed)
    (apart : h ∉ changed) : Held c s' h :=
  ⟨held.paired, (touched.frame h apart).trans held.found, held.fresh, touched.rest ▸ held.read⟩

theorem Abreast.declareVariables : ∀ {vars : List (Handle × Symbol)} {scope : SymbolTable}
    {s t : State}, Abreast c s t →
    (∀ entry ∈ vars, Held c s entry.1 ∧ (c.lexed entry.1).kind = .identifier ∧ entry.2.name = c.word entry.1) →
    (vars.map Prod.fst).Nodup →
    Follows (Grammar.declareVariables vars scope)
      (Grammar.declareVariables (vars.map fun entry => (c.partner entry.1, entry.2)) scope) s t
      fun scope scope' s' t' => scope' = scope ∧ Touched c s t s' t' (vars.map Prod.fst)
  | [], scope, s, t, abreast, _, _ => .pure ⟨rfl, .refl abreast _⟩
  | (token, symbol) :: rest, scope, s, t, abreast, each, nodup => by
    rw [List.map_cons, Grammar.declareVariables, Grammar.declareVariables]
    obtain ⟨held, kind, named⟩ := each _ List.mem_cons_self
    rw [List.map_cons, List.nodup_cons] at nodup
    refine abreast.textOf held.paired held.found ?_
    refine .step rfl rfl ?_
    rw [abreast.isTaken]
    split_ifs
    · exact .fail_bind token _
    refine abreast.refine held (by rw [kind]; rfl) rfl fun s₁ t₁ touched found => ?_
    have read : token ∉ s₁.source.rest := touched.rest ▸ held.read
    refine touched.abreast.setSymbol held.paired found read rfl named fun s₂ t₂ touched' => ?_
    have both := touched.trans touched'
    have more : ∀ entry ∈ rest, Held c s₂ entry.1 ∧ (c.lexed entry.1).kind = .identifier ∧ entry.2.name =
        c.word entry.1 := by
      intro entry member
      obtain ⟨held', about⟩ := each entry (List.mem_cons_of_mem _ member)
      have apart : entry.1 ∉ [token] := by
        intro same
        have inside : entry.1 ∈ rest.map Prod.fst := List.mem_map_of_mem member
        exact nodup.1 (List.mem_singleton.mp same ▸ inside)
      exact ⟨held'.touched both apart, about⟩
    refine (declareVariables both.abreast more nodup.2).weaken ?_
    rintro scope scope' s' t' ⟨same, changed⟩
    exact ⟨same, (both.widen (by simp)).trans (changed.widen (by simp))⟩

/-- The reading changes no token. -/
def Leaves {α : Type} (p : Parse α) : Prop := ∀ s a s', p.run s = .ok (a, s') → s'.source.tokens = s.source.tokens

namespace Leaves

variable {α β : Type}

theorem pure (a : α) : Leaves (Pure.pure a : Parse α) := by
  intro s b s' ran
  cases ran
  rfl

theorem bind {p : Parse α} {f : α → Parse β} (first : Leaves p) (next : ∀ a, Leaves (f a)) : Leaves (p >>= f) := by
  intro s b s'' ran
  obtain ⟨a, s', one, ran⟩ := bind_done ran
  exact (next a s' b s'' ran).trans (first s a s' one)

theorem unexpected (expected : String) : Leaves (Grammar.unexpected expected : Parse α) := by
  intro s a s' ran
  obtain ⟨e, failed⟩ := Fails.unexpected (α := α) expected s
  rw [failed] at ran
  cases ran

theorem peek : Leaves peek? := by
  intro s a s' ran
  cases ran
  rfl

theorem advance : Leaves Grammar.advance := by
  intro s a s' ran
  cases mine : s.source.rest with
  | nil =>
    unfold Grammar.advance at ran
    rw [StateT.run_bind] at ran
    simp only [StateT.run_get, pure_bind, mine] at ran
    exact unexpected "more input" s a s' ran
  | cons h rest =>
    rw [run_advance mine] at ran
    cases ran
    rfl

theorem expect (kind : TokenKind) : Leaves (Grammar.expect kind) := by
  refine peek.bind fun next => ?_
  split_ifs
  · exact advance
  · exact unexpected kind.describe

theorem accept (kind : TokenKind) : Leaves (accept? kind) := by
  refine peek.bind fun next => ?_
  split_ifs
  · exact advance.bind fun h => pure _
  · exact pure none

theorem separated {separator : TokenKind} {item : Parse α} (each : Leaves item) :
    ∀ left, Leaves (Grammar.separated separator item left)
  | 0 => each.bind fun _ => pure _
  | left + 1 => by
    refine each.bind fun first => (accept separator).bind fun taken => ?_
    cases taken with
    | none => exact pure _
    | some _ => exact (separated each left).bind fun _ => pure _

end Leaves

/-- Tokens that were read and not changed are held. -/
theorem Advanced.held (abreast : Abreast c s t) (advanced : Advanced c s t s' t' used)
    (same : s'.source.tokens = s.source.tokens) : ∀ h ∈ used, Held c s' h := by
  intro h member
  obtain ⟨found, fresh⟩ := abreast.unread h (by rw [advanced.took]; exact List.mem_append_left _ member)
  have nodup := abreast.nodup
  rw [advanced.took] at nodup
  exact ⟨advanced.paired h member, same ▸ found, fresh, fun later => (List.nodup_append'.mp nodup).2.2 member later⟩

/-- The name of a loop variable, as an item of a list. -/
def VariableItem (c : Pairing) (used : List Handle) (h h' : Handle) : Prop :=
  used = [h] ∧ h' = c.partner h ∧ (c.lexed h).kind = .identifier

theorem Items.variables {vars vars' : List Handle} (items : Items c .comma (VariableItem c) used vars vars') :
    vars' = vars.map c.partner ∧ Listed c used (vars.map c.word) ∧ vars.Sublist used ∧ Comprises c used vars ∧
      ∀ h ∈ vars, (c.lexed h).kind = .identifier := by
  induction items with
  | one item =>
    obtain ⟨rfl, rfl, kind⟩ := item
    exact ⟨rfl, .one (.token kind rfl) rfl rfl, List.Sublist.refl _, by simp [Comprises], by simpa using kind⟩
  | @more front back between h h' vars vars' item separator word items later =>
    obtain ⟨rfl, rfl, kind⟩ := item
    obtain ⟨rfl, listed, sub, among, kinds⟩ := later
    have comma : Spelled c [between] "," .comma .comma := by
      rw [← word "," rfl]
      exact .token separator rfl
    have nonempty : vars.map c.word ≠ [] := by
      cases items <;> simp
    refine ⟨rfl, .cons (.token kind rfl) rfl comma nonempty listed, (sub.cons between).cons_cons h, ?_,
      by simpa using ⟨kind, kinds⟩⟩
    obtain ⟨within, others⟩ := among
    refine ⟨List.cons_subset.mpr ⟨by simp, List.Subset.trans within (by simp)⟩, fun k member => ?_⟩
    simp only [List.mem_append, List.mem_singleton] at member
    rcases member with (rfl | rfl) | inside
    · exact .inl List.mem_cons_self
    · exact .inr separator
    · exact (others k inside).imp_left (List.mem_cons_of_mem _)

/-- The names of the variables, and what reading them leaves. -/
theorem Abreast.variables (abreast : Abreast c s t) {α β : Type} {f : List Handle → Parse α} {g : List Handle → Parse β}
    {post : α → β → State → State → Prop}
    (next : ∀ vars used s' t', Advanced c s t s' t' used → Listed c used (vars.map c.word) →
    Comprises c used vars → vars.Nodup →
      (∀ h ∈ vars, Held c s' h ∧ (c.lexed h).kind = .identifier) → Follows (f vars)
      (g (vars.map c.partner)) s' t' post) :
    Follows (remaining >>= fun left => Grammar.separated .comma (Grammar.expect .identifier) left >>= f)
      (remaining >>= fun left => Grammar.separated .comma (Grammar.expect .identifier) left >>= g) s t post := by
  refine .step rfl rfl ?_
  have item : ∀ {s t}, Abreast c s t → Follows (Grammar.expect .identifier) (Grammar.expect .identifier) s t
      fun h h' s' t' => ∃ used, Advanced c s t s' t' used ∧ used ≠ [] ∧ VariableItem c used h h' := by
    intro s t abreast
    rw [← bind_pure (Grammar.expect .identifier)]
    exact abreast.expect (by decide) fun h s' t' taken _ kind =>
      .pure ⟨_, taken, by simp, rfl, rfl, kind⟩
  have all := Abreast.separated (by decide : TokenKind.comma ≠ .closeBrace)
    (fun abreast _ _ => item abreast) _ _ abreast (Nat.le_refl _) (Nat.le_refl _) (Nat.le_refl _) (Nat.le_refl _)
  refine .bind (all.and_run fun _ s' => Leaves.separated (.expect _) _ s _ s') ?_
  rintro vars _ s' t' ⟨⟨used, advanced, items⟩, same⟩
  obtain ⟨rfl, listed, sub, among, kinds⟩ := items.variables
  have nodup := abreast.nodup
  rw [advanced.took] at nodup
  exact next vars used s' t' advanced listed among (sub.nodup (List.nodup_append'.mp nodup).1)
    fun h member => ⟨advanced.held abreast same h (sub.subset member), kinds h member⟩

private theorem Abreast.textsOf (abreast : Abreast c s t) {hs : List Handle} (held : ∀ h ∈ hs, Held c s h) {α β : Type}
    {f : List String → Parse α} {g : List String → Parse β} {post : α → β → State → State → Prop}
    (next : Follows (f (hs.map c.word)) (g (hs.map c.word)) s t post) :
    Follows (hs.mapM Grammar.textOf >>= f) ((hs.map c.partner).mapM Grammar.textOf >>= g) s t post := by
  have run (s : State) (hs : List Handle) : (hs.mapM Grammar.textOf).run s = .ok (hs.map s.source.tokens.text, s) := by
    induction hs with
    | nil => rfl
    | cons h rest later =>
      rw [List.mapM_cons, StateT.run_bind, Abreast.run_textOf]
      show ((rest.mapM Grammar.textOf).run s >>= _) = _
      rw [later]
      rfl
  refine .step (run s hs) (run t _) ?_
  have texts : hs.map s.source.tokens.text = hs.map c.word ∧
      (hs.map c.partner).map t.source.tokens.text = hs.map c.word := by
    rw [List.map_map]
    exact ⟨List.map_congr_left fun h member => (abreast.tokens.text (held h member).paired (held h member).found).1,
      List.map_congr_left fun h member => (abreast.tokens.text (held h member).paired (held h member).found).2⟩
  rw [texts.1, texts.2]
  exact next

/-! ### Bodies -/

private theorem Advanced.rescope (advanced : Advanced c s t s' t' used) {scopes scopes' : List SymbolTable}
    (same : scopes' = scopes) : Advanced c s t { s' with scopes } { t' with scopes := scopes' } used :=
  { advanced with abreast := { advanced.abreast with scopes := same } }

private theorem Advanced.reloop (advanced : Advanced c s t s' t' used) {loops loops' : Nat} (same : loops' = loops) :
    Advanced c s t { s' with stringLoops := loops } { t' with stringLoops := loops' } used :=
  { advanced with abreast := { advanced.abreast with stringLoops := same } }

variable {quantifier : Expr} {for_ : Handle} {u : List Handle}

theorem Advanced.loopIn (opened : Advanced c s t s' t' ([for_] ++ u)) (kind : (c.lexed for_).kind = .kwFor)
    (spells : Spells c u quantifier) (readers : ReadersFollow c bound self self')
    (room : 15 * t.source.rest.length ≤ bound) :
    Follows (Grammar.loopIn self for_ quantifier)
    (Grammar.loopIn self' (c.partner for_) (quantifier.mapHandles c.partner))
      s' t' (ReadExpr c s t) := by
  unfold Grammar.loopIn
  refine opened.abreast.variables fun vars v s₁ t₁ named listed among nodup each => ?_
  have before := opened.trans named
  refine named.abreast.expect (by decide) fun in_ s₂ t₂ word held kind' => ?_
  have until_ := before.trans word
  refine .bind (word.abreast.iterable readers (until_.deeper (by simp) room .access)) ?_
  rintro iterable _ s₃ t₃ ⟨rfl, w, read, spells'⟩
  have each' : ∀ h ∈ vars, Held c s₃ h ∧ (c.lexed h).kind = .identifier := fun h member =>
    ⟨((each h member).1.later word).later read, (each h member).2⟩
  refine read.abreast.textsOf (fun h member => (each' h member).1) ?_
  refine read.abreast.symbolOf (spells'.paired read) ?_
  rw [loopVariables_mapHandles]
  have names := loopVariables_names (symbolIn? s₃.source.tokens iterable) iterable (vars.map c.word)
  revert names
  obtain ⟨expected, symbols⟩ := loopVariables (symbolIn? s₃.source.tokens iterable) iterable (vars.map c.word)
  intro names
  simp only [List.length_map]
  split_ifs
  · exact .fail_bind _ _
  rw [List.zip_map_left]
  have sub := firsts_of_zip vars symbols
  refine .bind (read.abreast.declareVariables (fun entry member => ?_) (sub.nodup nodup)) ?_
  · have inside : entry.1 ∈ vars := sub.subset (List.mem_map_of_mem member)
    exact ⟨(each' _ inside).1, (each' _ inside).2, names_of_zip names entry member⟩
  rintro scope scope' s₄ t₄ ⟨same, touched⟩
  subst same
  have declared := (until_.trans read).touch touched fun h member => by
    have inside := among.1 (sub.subset member)
    simp [inside]
  refine touched.abreast.expect (by decide) fun colon s₅ t₅ closed held' kind'' => ?_
  have upto := declared.trans closed
  refine .step rfl rfl (.step rfl rfl ?_)
  have inside := upto.rescope (congrArg (scope' :: ·) closed.abreast.scopes)
  refine .bind (inside.abreast.parenthesized readers (upto.room room)) ?_
  rintro body _ s₆ t₆ ⟨rfl, x, read', spells''⟩
  refine .step rfl rfl (.pure ?_)
  exact ⟨rfl, _, (inside.trans read').rescope closed.abreast.scopes,
    .forIn kind spells listed among kind' spells' kind'' spells''⟩

theorem Advanced.loopOf (opened : Advanced c s t s' t' ([for_] ++ u)) (kind : (c.lexed for_).kind = .kwFor)
    (spells : Spells c u quantifier) (readers : ReadersFollow c bound self self')
    (room : 15 * t.source.rest.length ≤ bound) :
    Follows (Grammar.loopOf self for_ quantifier)
    (Grammar.loopOf self' (c.partner for_) (quantifier.mapHandles c.partner))
      s' t' (ReadExpr c s t) := by
  unfold Grammar.loopOf
  refine opened.abreast.expect (by decide) fun of_ s₁ t₁ word held kind' => ?_
  refine .bind word.abreast.stringSet ?_
  rintro members _ s₂ t₂ ⟨rfl, v, read, spells'⟩
  refine read.abreast.expect (by decide) fun colon s₃ t₃ closed held' kind'' => ?_
  have upto := ((opened.trans word).trans read).trans closed
  refine .step rfl rfl ?_
  have inside := upto.reloop (congrArg (· + 1) closed.abreast.stringLoops)
  refine .bind (inside.abreast.parenthesized readers (upto.room room)) ?_
  rintro body _ s₄ t₄ ⟨rfl, w, read', spells''⟩
  refine .step rfl rfl (.pure ?_)
  have outer := (inside.trans read').reloop (congrArg (· - 1) read'.abreast.stringLoops)
  exact ⟨rfl, _, outer, .forOf kind spells kind' spells' kind'' spells''⟩

theorem Abreast.loop (abreast : Abreast c s t) (readers : ReadersFollow c bound self self')
    (room : 15 * t.source.rest.length ≤ bound) :
    Follows (Grammar.loop self) (Grammar.loop self') s t (ReadExpr c s t) := by
  unfold Grammar.loop
  refine abreast.expect (by decide) fun for_ s₁ t₁ opened held kind => ?_
  refine .bind (opened.abreast.quantifier readers (opened.deeper (by simp) room .sum)) ?_
  rintro quantifier _ s₂ t₂ ⟨rfl, u, read, spells⟩
  have both := opened.trans read
  have through := both.loopIn kind spells readers room
  refine read.abreast.peek ?_ fun _ => through
  split_ifs
  · exact both.loopOf kind spells readers room
  · exact through

end YaraRules.Grammar
