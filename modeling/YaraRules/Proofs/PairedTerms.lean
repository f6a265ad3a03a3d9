import YaraRules.Proofs.PairedNames

/-! Ranges, sets and quantifiers of conditions, read side by side. The readers for the
expressions inside are given; they are good for as many tokens as a bound tells. -/

namespace YaraRules.Grammar

/-- How many levels there are from a level down to the tightest. -/
def Level.rank : Level → Nat
  | .disjunction => 14
  | .conjunction => 13
  | .negation => 12
  | .quantified => 11
  | .equality => 10
  | .relation => 9
  | .bitOr => 8
  | .bitXor => 7
  | .bitAnd => 6
  | .shift => 5
  | .sum => 4
  | .product => 3
  | .sign => 2
  | .access => 1

private theorem Level.rank_le (level : Level) : level.rank ≤ 14 := by
  cases level <;> decide

/-- An expression was read on both sides. -/
def ReadExpr (c : Pairing) (s t : State) (e e' : Expr) (s' t' : State) : Prop :=
  e' = e.mapHandles c.partner ∧ ∃ used, Advanced c s t s' t' used ∧ Spells c used e

/-- The readers agree where no more than a bounded number of tokens is left. -/
def ReadersFollow (c : Pairing) (bound : Nat) (self self' : Readers) : Prop :=
  ∀ level {s t}, Abreast c s t → 15 * t.source.rest.length + level.rank ≤ bound →
    Follows (self level) (self' level) s t (ReadExpr c s t)

variable {c : Pairing} {s t s' t' s'' t'' : State} {bound : Nat} {self self' : Readers}

theorem Advanced.room {used : List Handle} (advanced : Advanced c s t s' t' used)
    (room : 15 * t.source.rest.length ≤ bound) : 15 * t'.source.rest.length ≤ bound := by
  have length := advanced.length
  omega

/-- After a token was read there is room for every level. -/
theorem Advanced.deeper {used : List Handle} (advanced : Advanced c s t s' t' used) (some : used ≠ [])
    (room : 15 * t.source.rest.length ≤ bound) (level : Level) : 15 * t'.source.rest.length + level.rank ≤ bound := by
  have length := advanced.length
  have positive := List.length_pos_iff.mpr some
  have rank := level.rank_le
  omega

/-- A token that is always written the same way. -/
theorem Spelled.fixed {h : Handle} {kind : TokenKind} {text : String} (held : Held c s h) (abreast : Abreast c s t)
    (same : (c.lexed h).kind = kind) (word : Lexer.isWord kind = true)
    (fixed : kind.fixedText? = some text) : Spelled c [h] text kind kind := by
  rw [← held.word abreast same fixed]
  exact .token same word

/-! ### Ranges and parentheses -/

theorem Abreast.parenthesized (abreast : Abreast c s t) (readers : ReadersFollow c bound self self')
    (room : 15 * t.source.rest.length ≤ bound) :
    Follows (Grammar.parenthesized self) (Grammar.parenthesized self') s t (ReadExpr c s t) := by
  unfold Grammar.parenthesized
  refine abreast.expectOnly (by decide) fun opening rest others mine opened held kind => ?_
  refine .step rfl rfl ?_
  refine opened.abreast.breakAfter held.paired held.found held.read held.fresh.free fun s₂ t₂ touched => ?_
  have entered := opened.touch touched (List.Subset.refl _)
  refine .bind (readers .disjunction entered.abreast (entered.deeper (by simp) room .disjunction)) ?_
  rintro inner _ s₃ t₃ ⟨rfl, used, read, spells⟩
  refine read.abreast.expect (by decide) fun closing s₄ t₄ closed held' kind' => ?_
  exact .pure ⟨by simp [Expr.mapHandles], _, (entered.trans read).trans closed,
    .paren (.fixed held opened.abreast kind rfl rfl) spells (.fixed held' closed.abreast kind' rfl rfl)⟩

theorem Abreast.rangeOf (abreast : Abreast c s t) {opening opening' dots dots' closing closing' : Handle}
    {low high : Expr}
    (one : ∀ h ∈ low.handles, c.paired h) (two : ∀ h ∈ high.handles, c.paired h)
    {post : Expr → Expr → State → State → Prop}
    (holds : post (.range .integer opening low dots high closing)
      (.range .integer opening' (low.mapHandles c.partner) dots' (high.mapHandles c.partner) closing') s t) :
    Follows (Grammar.rangeOf opening low dots high closing)
      (Grammar.rangeOf opening' (low.mapHandles c.partner) dots' (high.mapHandles c.partner) closing') s t post := by
  unfold Grammar.rangeOf
  refine .checkOperand (low.type_mapHandles _) (.checkOperand (high.type_mapHandles _) ?_)
  refine .step rfl rfl ?_
  rw [abreast.tokens.integerIn? one, abreast.tokens.integerIn? two]
  split
  · split_ifs
    · exact .fail_bind opening _
    · exact .pure holds
  · exact .pure holds

theorem Spells.paired {used : List Handle} {e : Expr} (spells : Spells c used e)
    (advanced : Advanced c s t s' t' used) : ∀ h ∈ e.handles, c.paired h :=
  fun h inside => advanced.paired h (spells.handles.1 inside)

theorem Abreast.range (abreast : Abreast c s t) (readers : ReadersFollow c bound self self')
    (room : 15 * t.source.rest.length ≤ bound) :
    Follows (Grammar.range self) (Grammar.range self') s t (ReadExpr c s t) := by
  unfold Grammar.range
  refine abreast.expect (by decide) fun opening s₁ t₁ opened held kind => ?_
  refine .bind (readers .bitOr opened.abreast (opened.deeper (by simp) room .bitOr)) ?_
  rintro low _ s₂ t₂ ⟨rfl, u, read, spells⟩
  refine read.abreast.expect (by decide) fun dots s₃ t₃ dotted held' kind' => ?_
  have before := (opened.trans read).trans dotted
  refine .bind (readers .bitOr dotted.abreast (before.deeper (by simp) room .bitOr)) ?_
  rintro high _ s₄ t₄ ⟨rfl, v, read', spells'⟩
  refine read'.abreast.expect (by decide) fun closing s₅ t₅ closed held'' kind'' => ?_
  refine closed.abreast.rangeOf (spells.paired read) (spells'.paired read') ?_
  exact ⟨rfl, _, (before.trans read').trans closed, .range (.fixed held opened.abreast kind rfl rfl) spells
    (.fixed held' dotted.abreast kind' rfl rfl) spells' (.fixed held'' closed.abreast kind'' rfl rfl)⟩

/-! ### Sets -/

/-- Items with separators between them, each of which was read on both sides. -/
inductive Items (c : Pairing) {α : Type} (separator : TokenKind) (item : List Handle → α → α → Prop) :
    List Handle → List α → List α → Prop
  | one {used : List Handle} {a a' : α} : item used a a' → Items c separator item used [a] [a']
  | more {front back : List Handle} {between : Handle} {a a' : α} {as as' : List α} : item front a a' →
    (c.lexed between).kind = separator → (∀ text, separator.fixedText? = some text → c.word between = text) →
    Items c separator item back as as' → Items c separator item (front ++ [between] ++ back) (a :: as) (a' :: as')

theorem Abreast.separated {α : Type} {separator : TokenKind} {item item' : Parse α}
    {related : List Handle → α → α → Prop}
    {m m' : Nat} (more : separator ≠ .closeBrace)
    (reads : ∀ {s t}, Abreast c s t → s.source.rest.length ≤ m → t.source.rest.length ≤ m' →
      Follows item item' s t fun a a' s' t' => ∃ used, Advanced c s t s' t' used ∧ used ≠ [] ∧ related used a a') :
    ∀ (left left' : Nat) {s t : State}, Abreast c s t → s.source.rest.length ≤ m → t.source.rest.length ≤ m' →
      s.source.rest.length ≤ left → t.source.rest.length ≤ left' →
      Follows (Grammar.separated separator item left) (Grammar.separated separator item' left') s t
        fun as as' s' t' => ∃ used, Advanced c s t s' t' used ∧ Items c separator related used as as' := by
  intro left
  induction left with
  | zero =>
    -- An item takes a token, and none is left.
    intro left' s t abreast room room' few few'
    have none : ∀ {used : List Handle} {s' t' : State}, Advanced c s t s' t' used → used ≠ [] → False := by
      intro used s' t' advanced nonempty
      have length := advanced.length_first
      have positive := List.length_pos_iff.mpr nonempty
      omega
    have first := reads abreast room room'
    cases left' with
    | zero => exact .bind first fun _ _ _ _ ⟨_, advanced, nonempty, _⟩ => (none advanced nonempty).elim
    | succ left' => exact .bind first fun _ _ _ _ ⟨_, advanced, nonempty, _⟩ => (none advanced nonempty).elim
  | succ left later =>
    intro left' s t abreast room room' few few'
    cases left' with
    | zero =>
      refine .bind (reads abreast room room') ?_
      rintro a a' s₁ t₁ ⟨used, advanced, nonempty, -⟩
      have length := advanced.length
      have positive := List.length_pos_iff.mpr nonempty
      omega
    | succ left' =>
      refine .bind (reads abreast room room') ?_
      rintro a a' s₁ t₁ ⟨front, advanced, nonempty, holds⟩
      have length := advanced.length
      have length' := advanced.length_first
      have positive := List.length_pos_iff.mpr nonempty
      refine advanced.abreast.accept more ?_ ?_
      · intro between s₂ t₂ taken held kind
        have fewer := taken.length
        have fewer' := taken.length_first
        refine .bind (later left' taken.abreast (by omega) (by omega) (by omega) (by omega)) ?_
        rintro as as' s₃ t₃ ⟨back, rest, items⟩
        exact .pure ⟨_, (advanced.trans taken).trans rest,
          .more holds kind (fun text fixed => held.word taken.abreast kind fixed) items⟩
      · intro _
        exact .pure ⟨front, advanced, .one holds⟩

/-- An expression that was read, as an item of a list. -/
def ExprItem (c : Pairing) (used : List Handle) (e e' : Expr) : Prop := e' = e.mapHandles c.partner ∧ Spells c used e

theorem Items.exprs {used : List Handle} {es es' : List Expr} (items : Items c .comma (ExprItem c) used es es') :
    es' = Expr.mapHandlesAll c.partner es ∧ Listed c used (es.map (·.textWith c.word)) ∧
    Comprises c used (Expr.handlesAll es) := by
  induction items with
  | one item =>
    obtain ⟨first, last, spelled, starts, ends, -⟩ := item.2.spelled
    refine ⟨by rw [item.1]; rfl, .one spelled starts ends, ?_⟩
    have inside := item.2.handles
    simp only [Expr.handlesAll]
    grind
  | @more front back between e e' es es' item kind word items later =>
    obtain ⟨same, listed, handles⟩ := later
    obtain ⟨first, last, spelled, starts, -, -⟩ := item.2.spelled
    have comma : Spelled c [between] "," .comma .comma := by
      rw [← word "," rfl]
      exact .token kind rfl
    have nonempty : es.map (·.textWith c.word) ≠ [] := by
      cases items <;> simp
    refine ⟨by rw [item.1, same]; rfl, .cons spelled starts comma nonempty listed, ?_⟩
    have inside := item.2.handles
    simp only [Expr.handlesAll]
    grind

/-- Readers of expressions read the items of lists. -/
theorem Follows.item {p q : Parse Expr} (reads : Follows p q s t (ReadExpr c s t)) :
    Follows p q s t fun e e' s' t' => ∃ used, Advanced c s t s' t' used ∧ used ≠ [] ∧ ExprItem c used e e' := by
  refine reads.weaken ?_
  rintro e e' s' t' ⟨same, used, advanced, spells⟩
  exact ⟨used, advanced, spells.nonempty, same, spells⟩

theorem Named.read {token : Handle} {e e' : Expr} (named : Named c s' t' token e e' s'' t'')
    (read : Advanced c s t s' t' [token])
    (kind : (c.lexed token).kind = .identifier) : ReadExpr c s t e e' s'' t'' := by
  obtain ⟨touched, type, rfl, rfl⟩ := named
  exact ⟨rfl, _, read.touch touched (List.Subset.refl _), .atom kind rfl rfl fun _ => rfl⟩

theorem Abreast.setElement (abreast : Abreast c s t) :
    Follows Grammar.setElement Grammar.setElement s t (ReadExpr c s t) := by
  unfold Grammar.setElement
  refine abreast.peek ?_ fun _ => .unexpected _
  cases seen : c.next s with
  | none => exact .unexpected _
  | some kind =>
    cases kind
    case stringName =>
      refine abreast.advance seen (by decide) fun token s₁ t₁ read held kind => ?_
      refine read.abreast.stringReference held (by rw [kind]; rfl) fun s₂ t₂ touched => ?_
      exact .pure ⟨rfl, _, read.touch touched (List.Subset.refl _), .atom kind rfl rfl (by simp)⟩
    case stringWildcard =>
      refine abreast.advance seen (by decide) fun token s₁ t₁ read held kind => ?_
      refine read.abreast.textOf held.paired held.found ?_
      refine .step rfl rfl ?_
      rw [read.abreast.strings]
      split_ifs
      · exact .fail_bind token _
      · exact .pure ⟨rfl, _, read, .atom kind rfl rfl (by simp)⟩
    case identifier =>
      refine abreast.advance seen (by decide) fun token s₁ t₁ read held kind => ?_
      exact (read.abreast.name held kind).weaken fun _ _ _ _ named => named.read read kind
    all_goals exact .unexpected _

theorem Abreast.stringSet (abreast : Abreast c s t) :
    Follows Grammar.stringSet Grammar.stringSet s t (ReadExpr c s t) := by
  unfold Grammar.stringSet
  refine abreast.accept (by decide) ?_ fun _ => ?_
  · intro token s₁ t₁ read held kind
    refine .step rfl rfl ?_
    rw [read.abreast.strings]
    split_ifs
    · exact .fail_bind token _
    · exact .pure ⟨rfl, _, read, .atom kind rfl rfl (by simp)⟩
  · refine abreast.expect (by decide) fun opening s₁ t₁ opened held kind => ?_
    refine .step rfl rfl ?_
    refine .bind (Abreast.separated (by decide) (fun abreast _ _ => abreast.setElement.item) _ _ opened.abreast
      (Nat.le_refl _) (Nat.le_refl _) (Nat.le_refl _) (Nat.le_refl _)) ?_
    rintro elements elements' s₂ t₂ ⟨used, read, items⟩
    obtain ⟨rfl, listed, handles⟩ := items.exprs
    refine read.abreast.expect (by decide) fun closing s₃ t₃ closed held' kind' => ?_
    exact .pure ⟨rfl, _, (opened.trans read).trans closed,
      .set (.fixed held opened.abreast kind rfl rfl) listed handles (.fixed held' closed.abreast kind' rfl rfl)⟩

/-! ### Quantifiers -/

variable {used : List Handle} {operand : Expr}

theorem Advanced.percentage (read : Advanced c s t s' t' used) (spells : Spells c used operand) :
    Follows (Grammar.percentage operand)
    (Grammar.percentage (operand.mapHandles c.partner)) s' t' (ReadExpr c s t) := by
  unfold Grammar.percentage
  refine read.abreast.expect (by decide) fun percent s₁ t₁ signed held kind => ?_
  refine signed.abreast.refine held (by rw [kind]; rfl) rfl fun s₂ t₂ touched _ => ?_
  refine .checkOperand (operand.type_mapHandles _) ?_
  exact .pure ⟨rfl, _, read.trans (signed.touch touched (List.Subset.refl _)), spells.percentage kind⟩

/-- Both readings check the expression before the next token, if there is one. -/
theorem Abreast.checkBefore (abreast : Abreast c s t) {e e' : Expr} (same : e'.type = e.type) {expected : OperandClass}
    {side : Side} {α β : Type} {post : α → β → State → State → Prop} {f : Parse α} {g : Parse β}
    (next : Follows f g s t post) :
    Follows
      (peekHandle? 0 >>= fun
        | some h => checkOperand h e expected side >>= fun _ => f
        | none => f)
      (peekHandle? 0 >>= fun
        | some h => checkOperand h e' expected side >>= fun _ => g
        | none => g) s t post :=
  abreast.peekHandle (fun _ _ => .checkOperand same next) (fun _ => .checkOperand_first next) next

theorem Abreast.atom (abreast : Abreast c s t) {k : TokenKind} (seen : c.next s = some k) (starts : startsExpr k = true)
    (ends : endsExpr k = true) {type : ValueType} {kind : AtomKind} (other : kind ≠ .name) :
    Follows (Grammar.advance >>= fun token => return Expr.atom type kind token)
      (Grammar.advance >>= fun token => return Expr.atom type kind token) s t (ReadExpr c s t) := by
  have more : k ≠ .closeBrace := by
    rintro rfl
    cases starts
  refine abreast.advance seen more fun token s₁ t₁ read held same => ?_
  exact .pure ⟨rfl, _, read, .atom same starts ends fun name => absurd name other⟩

theorem Abreast.quantifier (abreast : Abreast c s t) (readers : ReadersFollow c bound self self')
    (room : 15 * t.source.rest.length + Level.sum.rank ≤ bound) :
    Follows (Grammar.quantifier self) (Grammar.quantifier self') s t (ReadExpr c s t) := by
  unfold Grammar.quantifier
  have number : Follows
      (self .sum >>= fun e => peek? >>= fun next =>
        if next == some .modulo then Grammar.percentage e
        else do
          match ← peekHandle? 0 with
          | some next => Grammar.checkOperand next e .integer .left
          | none => Pure.pure ()
          return e)
      (self' .sum >>= fun e => peek? >>= fun next =>
        if next == some .modulo then Grammar.percentage e
        else do
          match ← peekHandle? 0 with
          | some next => Grammar.checkOperand next e .integer .left
          | none => Pure.pure ()
          return e) s t (ReadExpr c s t) := by
    refine .bind (readers .sum abreast room) ?_
    rintro e _ s₁ t₁ ⟨rfl, used, read, spells⟩
    have whole : ReadExpr c s t e (e.mapHandles c.partner) s₁ t₁ := ⟨rfl, used, read, spells⟩
    refine read.abreast.peek ?_ fun _ => ?_
    · split_ifs
      · exact read.percentage spells
      · exact read.abreast.checkBefore (e.type_mapHandles _) (.pure whole)
    · exact read.abreast.checkBefore (e.type_mapHandles _) (.pure whole)
  refine abreast.peek ?_ fun _ => number
  cases seen : c.next s with
  | none => exact number
  | some kind =>
    cases kind
    case kwAll => exact abreast.atom seen rfl rfl (by decide)
    case kwAny => exact abreast.atom seen rfl rfl (by decide)
    case kwNone => exact abreast.atom seen rfl rfl (by decide)
    all_goals exact number

theorem Advanced.ofRest (front : Advanced c s t s' t' used) (spells : Spells c used operand)
    (readers : ReadersFollow c bound self self') (room : 15 * t.source.rest.length ≤ bound) :
    Follows (Grammar.ofRest self operand)
    (Grammar.ofRest self' (operand.mapHandles c.partner)) s' t' (ReadExpr c s t) := by
  unfold Grammar.ofRest
  refine front.abreast.expect (by decide) fun of_ s₁ t₁ word held kind => ?_
  refine .bind word.abreast.stringSet ?_
  rintro members _ s₂ t₂ ⟨rfl, inside, read, spells'⟩
  have before := (front.trans word).trans read
  have whole : ReadExpr c s t (.of .boolean operand of_ members)
      (.of .boolean (operand.mapHandles c.partner) (c.partner of_) (members.mapHandles c.partner)) s₂ t₂ :=
    ⟨rfl, _, before, .of spells kind spells'⟩
  refine read.abreast.peek ?_ fun _ => .pure whole
  cases seen : c.next s₂ with
  | none => exact .pure whole
  | some kind =>
    cases kind
    case kwAt =>
      refine read.abreast.advance seen (by decide) fun keyword s₃ t₃ taken held' kind' => ?_
      have until_ := before.trans taken
      refine .bind (readers .bitOr taken.abreast (until_.deeper (by simp) room .bitOr)) ?_
      rintro anchor _ s₄ t₄ ⟨rfl, u, read', spells''⟩
      refine .checkOperand (anchor.type_mapHandles _) ?_
      exact .pure ⟨rfl, _, until_.trans read', .ofAnchored spells kind spells' kind' rfl (by decide) spells''⟩
    case kwIn =>
      refine read.abreast.advance seen (by decide) fun keyword s₃ t₃ taken held' kind' => ?_
      have until_ := before.trans taken
      refine .bind (taken.abreast.range readers (until_.room room)) ?_
      rintro anchor _ s₄ t₄ ⟨rfl, u, read', spells''⟩
      exact .pure ⟨rfl, _, until_.trans read', .ofAnchored spells kind spells' kind' rfl (by decide) spells''⟩
    all_goals exact .pure whole

end YaraRules.Grammar
