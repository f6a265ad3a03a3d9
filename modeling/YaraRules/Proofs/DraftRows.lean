import YaraRules.Draft.Rule
import YaraRules.Proofs.RuleEdits
import YaraRules.Proofs.RowSteps
import YaraRules.Proofs.StreamWords

/-! What is built from drafts. The tokens of a draft are written in the order in which the
node that is built holds them, so every node that is built can be put into a file. None
of them is an alias: a name in a draft is written out. -/

namespace YaraRules

open TokenStream (Grows Plain codeOf_append codeOf_one)

/-- A stream of its own in which every token is written by its own literal. -/
structure TokenStream.Drafted (s : TokenStream) : Prop extends Lone s where
  plain : ∀ piece ∈ s.view, Plain piece.2.1

theorem TokenStream.drafted_empty (id : ChainId) : (TokenStream.empty id).Drafted :=
  ⟨⟨TokenStream.sound_empty id, rfl⟩, fun _ => nofun⟩

theorem TokenStream.Drafted.push {s : TokenStream} (drafted : s.Drafted) {token : Token} (plain : Plain token) :
    (s.push token).2.Drafted := by
  obtain ⟨_, view, _⟩ := drafted.sound.push token
  refine ⟨(drafted.toLone.push token).1, fun piece member => ?_⟩
  rw [view] at member
  rcases List.mem_append.mp member with old | new
  · exact drafted.plain piece old
  · obtain rfl := List.mem_singleton.mp new
    exact plain

variable {base : TokenStream}

/-- A row was written behind others into a stream of its own, and nothing is lost that an earlier stream held. -/
def written (base : TokenStream) : Standing TokenStream where
  holds done row s := s.Drafted ∧ (done ++ row).Sublist s.code ∧ Grows base s
  shrink fewer holds := ⟨holds.1, (fewer.append_left _).trans holds.2.1, holds.2.2⟩
  pass holds := ⟨holds.1, by simpa using holds.2⟩
  join _ more := ⟨more.1, by simpa using more.2⟩

/-- A step writes the row of its result. -/
abbrev Writes {α : Type} (base : TokenStream) (before : List Handle) (step : Emit α) (row : α → List Handle) : Prop :=
  Lays (written base) before step row

namespace Emit

private theorem put_writes {token : Token} (word : token.kind ≠ .newLine) (plain : Plain token) :
    Writes base [] (put token) fun h => [h] := by
  intro s h s' done front holds
  obtain ⟨rfl, rfl⟩ : (s.push token).1 = h ∧ (s.push token).2 = s' := by
    have run : Except.ok (s.push token) = .ok (h, s') := done
    simpa [Prod.ext_iff] using run
  obtain ⟨drafted, row, grows⟩ := holds
  obtain ⟨_, _, _, code⟩ := drafted.toLone.push token
  refine ⟨drafted.push plain, ?_, grows.trans (drafted.toLone.tidy.get?_push token).2⟩
  rw [code, codeOf_one word]
  exact List.Sublist.append_right (by simpa using row) _

theorem fixed_writes {kind : TokenKind} (word : kind ≠ .newLine) : Writes base [] (fixed kind) fun h => [h] :=
  put_writes word rfl

private theorem blockOpening_writes {kind : TokenKind} (word : kind ≠ .newLine) :
    Writes base [] (blockOpening kind) fun h => [h] :=
  put_writes word rfl

private theorem literal_writes {kind : TokenKind} (word : kind ≠ .newLine) (value : Literal)
    (plain : value.aliasTarget? = none) : Writes base [] (literal kind value) fun h => [h] :=
  put_writes word plain

theorem newline_writes : Writes base [] newline fun _ => [] := by
  intro s u s' done front holds
  obtain rfl : (s.push (.fixed .newLine)).2 = s' := by
    have run : Except.ok ((), (s.push (.fixed .newLine)).2) = .ok (u, s') := done
    simpa [Prod.ext_iff] using run
  obtain ⟨drafted, row, grows⟩ := holds
  obtain ⟨_, _, _, code⟩ := drafted.toLone.push (.fixed .newLine)
  refine ⟨drafted.push rfl, ?_, grows.trans (drafted.toLone.tidy.get?_push _).2⟩
  rw [code]
  exact row.trans (List.sublist_append_left _ _)

end Emit

/-! ### Conditions -/

namespace ConditionDraft

private theorem atomOf_writes {kind : TokenKind} (word : kind ≠ .newLine) (literal : Literal) (type : ValueType)
    (atom : AtomKind) (plain : literal.aliasTarget? = none) : Writes base []
    (atomOf kind literal type atom) Expr.handles :=
  .bind (Emit.literal_writes word literal plain) fun _ => .pure (by simp [Expr.handles])

theorem hexLiteral_plain (value : UInt64) : (hexLiteral value).aliasTarget? = none := by
  unfold hexLiteral
  dsimp only
  split_ifs <;> rfl

private theorem checkName_writes (name : String) : Writes base [] (checkName name) fun _ => [] :=
  .ite (fun _ => .pure (.refl _)) fun _ => .never .throw

private theorem checkString_writes (id : String) : Writes base [] (checkString id) fun _ => [] :=
  .ite (fun _ => .pure (.refl _)) fun _ => .never .throw

private theorem emitVars_writes : ∀ vars, Writes base [] (emitVars vars) id
  | [] => .pure (.refl _)
  | [_] => .bind (Emit.literal_writes (by decide) _ rfl) fun _ => .pure (by simp)
  | var :: other :: rest =>
    .bind (Emit.literal_writes (by decide) _ rfl) fun _ => .skip (Emit.fixed_writes (by decide)) fun _ =>
      .bind (emitVars_writes (other :: rest)) fun _ => .pure (by simp)

private theorem refused_writes {before : List Handle} (operation : String) (operand : Expr) :
    Writes base before (do throw (.invalidOperand operation (← textNow operand))) Expr.handles := by
  refine .never fun s e s' done => ?_
  cases done

/-- A string or an `of` expression gets a place that was written right behind it. -/
theorem placed_writes {operation : String} {operand place : Expr} {keyword : Handle} {before : List Handle}
    {ofString ofCount : Handle → Option Expr} (written : before = operand.handles ++ [keyword] ++ place.handles)
    (strings : ∀ id e, ofString id = some e → e.handles = id :: keyword :: place.handles)
    (counts : ∀ id e, ofCount id = some e → e.handles = id :: keyword :: place.handles) :
    Writes base before (placed operation operand keyword place ofString ofCount) Expr.handles := by
  subst written
  unfold placed
  dsimp only
  split
  next id =>
    cases found : ofString id with
    | none => exact refused_writes _ _
    | some e => exact .pure (by simp [strings id e found, Expr.handles])
  next id =>
    cases found : ofCount id with
    | none => exact refused_writes _ _
    | some e => exact .pure (by simp [counts id e found, Expr.handles])
  next => exact .pure (by simp [Expr.handles])
  next => exact refused_writes _ _

private theorem inParens_writes {step : Emit Expr} (writes : Writes base [] step Expr.handles) (already : Bool) :
    Writes base [] (inParens already step) Expr.handles := by
  refine .ite (fun _ => writes) fun _ => ?_
  refine .bind (Emit.fixed_writes (by decide)) fun opening => .bind writes fun inner => ?_
  exact .bind (Emit.fixed_writes (by decide)) fun closing => .pure (by simp [Expr.handles])

mutual

/-- The tokens of a condition are written in the order in which it holds them. -/
theorem emit_writes : ∀ draft : ConditionDraft, Writes base [] draft.emit Expr.handles
  | integer _ | float _ | boolean _ | string _ => by
    rw [emit]
    exact atomOf_writes (by decide) _ _ _ rfl
  | hexInteger value => by
    rw [emit]
    exact atomOf_writes (by decide) _ _ _ (hexLiteral_plain value)
  | regexp pattern modifiers => by
    rw [emit]
    split
    · exact .bind (Emit.literal_writes (by decide) _ rfl) fun _ => .pure (by simp [Expr.handles])
    · exact .never .throw
  | name text => by
    rw [emit]
    exact .bind (checkName_writes text) fun _ => atomOf_writes (by decide) _ _ _ rfl
  | word w => by
    rw [emit]
    exact .bind (Emit.fixed_writes (by cases w <;> decide)) fun _ => .pure (by simp [Expr.handles])
  | stringUse use id => by
    rw [emit]
    exact .bind (checkString_writes id) fun _ => atomOf_writes (by cases use <;> decide) _ _ _ rfl
  | indexed measured id i => by
    rw [emit]
    refine .bind (checkString_writes id) fun _ => ?_
    refine .bind (Emit.literal_writes (by cases measured <;> decide) _ rfl) fun token => ?_
    refine .bind (Emit.fixed_writes (by decide)) fun opening => ?_
    refine .bind (emit_writes i) fun i => ?_
    exact .bind (Emit.fixed_writes (by decide)) fun closing => .pure (by simp [Expr.handles])
  | paren inner block => by
    rw [emit]
    cases block with
    | false =>
      refine .bind (Emit.fixed_writes (by decide)) fun opening => ?_
      refine .bind (emit_writes inner) fun inner => ?_
      exact .bind (Emit.fixed_writes (by decide)) fun closing => .pure (by simp [Expr.handles])
    | true =>
      refine .bind (Emit.blockOpening_writes (by decide)) fun opening => ?_
      refine .skip Emit.newline_writes fun _ => ?_
      refine .bind (emit_writes inner) fun inner => ?_
      refine .skip Emit.newline_writes fun _ => ?_
      exact .bind (Emit.fixed_writes (by decide)) fun closing => .pure (by simp [Expr.handles])
  | range low high => by
    rw [emit]
    refine .bind (Emit.fixed_writes (by decide)) fun opening => ?_
    refine .bind (emit_writes low) fun low => ?_
    refine .bind (Emit.fixed_writes (by decide)) fun dots => ?_
    refine .bind (emit_writes high) fun high => ?_
    exact .bind (Emit.fixed_writes (by decide)) fun closing => .pure (by simp [Expr.handles])
  | set elements => by
    rw [emit]
    refine .bind (Emit.fixed_writes (by decide)) fun opening => ?_
    refine .bind (emitAll_writes false elements) fun elements => ?_
    exact .bind (Emit.fixed_writes (by decide)) fun closing => .pure (by simp [Expr.handles])
  | integerFunction function arg => by
    rw [emit]
    refine .guard .throw ?_
    refine .bind (Emit.literal_writes (by decide) _ rfl) fun function => ?_
    refine .bind (Emit.fixed_writes (by decide)) fun opening => ?_
    refine .bind (emit_writes arg) fun arg => ?_
    exact .bind (Emit.fixed_writes (by decide)) fun closing => .pure (by simp [Expr.handles])
  | forIn quantifier vars iterable body => by
    rw [emit]
    refine .bind (.forM checkName_writes vars) fun _ => ?_
    refine .bind (Emit.fixed_writes (by decide)) fun for_ => ?_
    refine .bind (emit_writes quantifier) fun quantifier => ?_
    refine .bind (emitVars_writes vars) fun vars => ?_
    refine .bind (Emit.fixed_writes (by decide)) fun in_ => ?_
    refine .bind (emit_writes iterable) fun iterable => ?_
    refine .bind (Emit.fixed_writes (by decide)) fun colon => ?_
    exact .bind (inParens_writes (emit_writes body) _) fun body => .pure (by simp [Expr.handles])
  | forOf quantifier members body => by
    rw [emit]
    refine .bind (Emit.fixed_writes (by decide)) fun for_ => ?_
    refine .bind (emit_writes quantifier) fun quantifier => ?_
    refine .bind (Emit.fixed_writes (by decide)) fun of_ => ?_
    refine .bind (emit_writes members) fun members => ?_
    refine .bind (Emit.fixed_writes (by decide)) fun colon => ?_
    exact .bind (inParens_writes (emit_writes body) _) fun body => .pure (by simp [Expr.handles])
  | unary op operand => by
    rw [emit]
    refine .bind (Emit.fixed_writes (by cases op <;> decide)) fun token => ?_
    exact .bind (emit_writes operand) fun operand => .pure (by simp [Expr.handles])
  | binary op left right newline => by
    rw [emit]
    refine .bind (emit_writes left) fun left => ?_
    refine .bind (Emit.fixed_writes (by cases op <;> decide)) fun token => ?_
    cases newline with
    | false => exact .bind (emit_writes right) fun right => .pure (by simp [Expr.handles])
    | true =>
      refine .skip Emit.newline_writes fun _ => ?_
      exact .bind (emit_writes right) fun right => .pure (by simp [Expr.handles])
  | nothing op => by
    rw [emit]
    exact .never .throw
  | field structure_ text => by
    rw [emit]
    refine .bind (checkName_writes text) fun _ => ?_
    refine .bind (emit_writes structure_) fun structure_ => ?_
    refine .bind (Emit.fixed_writes (by decide)) fun dot => ?_
    exact .bind (Emit.literal_writes (by decide) _ rfl) fun member => .pure (by simp [Expr.handles])
  | index array i => by
    rw [emit]
    refine .bind (emit_writes array) fun array => ?_
    refine .bind (Emit.fixed_writes (by decide)) fun opening => ?_
    refine .bind (emit_writes i) fun i => ?_
    exact .bind (Emit.fixed_writes (by decide)) fun closing => .pure (by simp [Expr.handles])
  | call function args => by
    rw [emit]
    refine .bind (emit_writes function) fun function => ?_
    refine .bind (Emit.fixed_writes (by decide)) fun opening => ?_
    refine .bind (emitAll_writes false args) fun args => ?_
    exact .bind (Emit.fixed_writes (by decide)) fun closing => .pure (by simp [Expr.handles])
  | located operand offset => by
    rw [emit]
    refine .bind (emit_writes operand) fun operand => ?_
    refine .bind (Emit.fixed_writes (by decide)) fun at_ => ?_
    refine .bind (emit_writes offset) fun offset => ?_
    refine placed_writes (by simp) ?_ nofun
    rintro id _ ⟨⟩
    simp [Expr.handles]
  | confined operand bounds => by
    rw [emit]
    refine .bind (emit_writes operand) fun operand => ?_
    refine .bind (Emit.fixed_writes (by decide)) fun in_ => ?_
    refine .bind (emit_writes bounds) fun bounds => ?_
    split
    · refine placed_writes (by simp) ?_ ?_ <;>
        · rintro id _ ⟨⟩
          simp [Expr.handles]
    · exact refused_writes _ _
  | percent operand => by
    rw [emit]
    refine .bind (emit_writes operand) fun operand => ?_
    exact .bind (Emit.fixed_writes (by decide)) fun percent => .pure (by simp [Expr.handles])
  | of quantifier members => by
    rw [emit]
    refine .bind (emit_writes quantifier) fun quantifier => ?_
    refine .bind (Emit.fixed_writes (by decide)) fun of_ => ?_
    exact .bind (emit_writes members) fun members => .pure (by simp [Expr.handles])

private theorem emitAll_writes (comma : Bool) : ∀ drafts, Writes base [] (emitAll comma drafts) Expr.handlesAll
  | [] => by
    rw [emitAll]
    exact .pure (.refl _)
  | e :: rest => by
    rw [emitAll]
    have elements : Writes base [] (do
        let first ← e.emit
        return first :: (← emitAll true rest)) Expr.handlesAll :=
      .bind (emit_writes e) fun first => .bind (emitAll_writes true rest) fun rest =>
        .pure (by simp [Expr.handlesAll])
    exact .ite (fun _ => .skip (Emit.fixed_writes (by decide)) fun _ => elements) fun _ => elements

end

end ConditionDraft

/-! ### Hex strings -/

namespace HexDraft

private theorem emitByte_writes (text : List Char) : Writes base [] (emitByte text) HexUnit.handles :=
  .bind (Emit.literal_writes (by decide) _ rfl) fun _ => .pure (by simp [HexUnit.handles])

private theorem emitBound_writes (value : Option UInt64) : Writes base [] (emitBound value) Option.toList := by
  cases value with
  | none => exact .pure (.refl _)
  | some value => exact .bind (Emit.literal_writes (by decide) _ rfl) fun _ => .pure (by simp)

private theorem emitJump_writes (low : Option UInt64) (ranged : Bool) (high : Option UInt64) :
    Writes base [] (emitJump low ranged high) HexUnit.handles := by
  refine .bind (Emit.fixed_writes (by decide)) fun opening => ?_
  refine .bind (emitBound_writes low) fun low => ?_
  have rest (dash : Option Handle) : Writes base ([] ++ [opening] ++ low.toList ++ dash.toList) (do
      let high ← emitBound high
      let closing ← Emit.fixed .hexJumpClose
      return .jump opening low dash high closing) HexUnit.handles :=
    .bind (emitBound_writes high) fun high => .bind (Emit.fixed_writes (by decide)) fun closing =>
      .pure (by simp [HexUnit.handles])
  exact .ite (fun _ => .bind (.map (Emit.fixed_writes (by decide)) fun _ => .refl _) rest) fun _ =>
    .bind (.pure (.refl _)) rest

mutual

theorem emit_writes : ∀ draft : HexDraft, Writes base [] draft.emit HexUnit.handles
  | byte _ | anyByte | lowNibble _ | highNibble _ | otherByte _ => by
    rw [emit]
    exact emitByte_writes _
  | jump _ | jumpBetween _ _ | jumpFrom _ | jumpAny => by
    rw [emit]
    exact emitJump_writes _ _ _
  | alternation alternatives => by
    rw [emit]
    refine .bind (Emit.fixed_writes (by decide)) fun opening => ?_
    refine .bind (emitAlternatives_writes false alternatives) fun alternatives => ?_
    exact .bind (Emit.fixed_writes (by decide)) fun closing => .pure (by simp [HexUnit.handles])

private theorem emitAll_writes : ∀ drafts, Writes base [] (emitAll drafts) HexUnit.handlesAll
  | [] => by
    rw [emitAll]
    exact .pure (.refl _)
  | unit :: rest => by
    rw [emitAll]
    exact .bind (emit_writes unit) fun first => .bind (emitAll_writes rest) fun rest =>
      .pure (by simp [HexUnit.handlesAll])

private theorem emitAlternatives_writes (bar : Bool) :
    ∀ drafts, Writes base [] (emitAlternatives bar drafts) HexUnit.handlesAmong
  | [] => by
    rw [emitAlternatives]
    exact .pure (.refl _)
  | units :: rest => by
    rw [emitAlternatives]
    have units : Writes base [] (do
        let first ← emitAll units
        return first :: (← emitAlternatives true rest)) HexUnit.handlesAmong :=
      .bind (emitAll_writes units) fun first => .bind (emitAlternatives_writes true rest) fun rest =>
        .pure (by simp [HexUnit.handlesAmong])
    exact .ite (fun _ => .skip (Emit.fixed_writes (by decide)) fun _ => units) fun _ => units

end

private theorem emitString_writes (units : List HexDraft) : Writes base [] (emitString units) HexString.handles := by
  unfold emitString
  split
  · exact .never .throw
  · refine .bind (Emit.fixed_writes (by decide)) fun opening => ?_
    refine .bind (emitAll_writes units) fun units => ?_
    exact .bind (Emit.fixed_writes (by decide)) fun closing => .pure (by simp [HexString.handles])

end HexDraft

/-! ### Rules -/

namespace RuleDraft

/-- The token is a word that is written by its own literal. -/
def Word (token : TokenKind × Literal) : Prop := token.1 ≠ .newLine ∧ token.2.aliasTarget? = none

private theorem emitTokens_writes : ∀ {tokens : List (TokenKind × Literal)}, (∀ token ∈ tokens, Word token) →
    Writes base [] (emitTokens tokens) id
  | [], _ => .pure (.refl _)
  | (_, _) :: _, words => by
    rw [List.forall_mem_cons] at words
    exact .bind (Emit.literal_writes words.1.1 _ words.1.2) fun _ => .bind (emitTokens_writes words.2) fun _ =>
      .pure (by simp)

theorem emitSection_writes {kind : TokenKind} (word : kind ≠ .newLine) :
    Writes base [] (emitSection kind) Section.handles :=
  .bind (Emit.fixed_writes word) fun _ => .bind (Emit.fixed_writes (by decide)) fun _ =>
    .skip Emit.newline_writes fun _ => .pure (by simp [Section.handles])

theorem emitComments_writes (comments : List String) : Writes base [] (emitComments comments) fun _ => [] := by
  unfold emitComments
  split
  · exact Emit.newline_writes
  · exact .forM (fun _ => .skip (Emit.literal_writes (by decide) _ rfl) fun _ => Emit.newline_writes) _

theorem emitMetas_writes : ∀ {metas : List (String × TokenKind × Literal)}, (∀ entry ∈ metas, Word entry.2) →
    Writes base [] (emitMetas metas) fun entries => entries.flatMap MetaEntry.handles
  | [], _ => .pure (.refl _)
  | (_, _, _) :: _, words => by
    rw [List.forall_mem_cons] at words
    refine .bind (Emit.literal_writes (by decide) _ rfl) fun key => ?_
    refine .bind (Emit.fixed_writes (by decide)) fun assign => ?_
    refine .bind (Emit.literal_writes words.1.1 _ words.1.2) fun value => ?_
    refine .skip Emit.newline_writes fun _ => ?_
    exact .bind (emitMetas_writes words.2) fun rest => .pure (by simp [MetaEntry.handles])

/-- The first token of a modifier and the last. -/
abbrev modifierRow (tokens : Handle × Handle) : List Handle := spanRow tokens.1 tokens.2

private theorem single_writes {kind : TokenKind} (word : kind ≠ .newLine) :
    Writes base [] (do let token ← Emit.fixed kind; return (token, token)) modifierRow :=
  .bind (Emit.fixed_writes word) fun token => .pure (by simp [spanRow_self])

private theorem emitAlphabet_writes {kind : TokenKind} (word : kind ≠ .newLine) (alphabet : Option String) :
    Writes base [] (emitAlphabet kind alphabet) modifierRow := by
  refine .bind (Emit.fixed_writes word) fun first => ?_
  cases alphabet with
  | none => exact .pure (by simp [spanRow_self])
  | some alphabet =>
    refine .skip (Emit.fixed_writes (by decide)) fun _ => ?_
    refine .skip (Emit.literal_writes (by decide) _ rfl) fun _ => ?_
    exact .bind (Emit.fixed_writes (by decide)) fun last => .pure (spanRow_sublist first last)

private theorem emitModifierTokens_writes (modifier : ModifierKind) :
    Writes base [] (emitModifierTokens modifier) modifierRow := by
  unfold emitModifierTokens
  cases modifier with
  | ascii | wide | nocase | fullword | privately => exact single_writes (by decide)
  | base64 alphabet | base64wide alphabet => exact emitAlphabet_writes (by decide) alphabet
  | xor keys =>
    cases keys with
    | none => exact single_writes (by decide)
    | some keys =>
      obtain ⟨low, high⟩ := keys
      have key (value : UInt8) : Writes base [] (do
          let _ ← Emit.literal .integer (.ofInt (Int64.ofNat value.toNat))) fun _ => [] :=
        .skip (Emit.literal_writes (by decide) _ rfl) fun _ => .pure (.refl _)
      refine .bind (Emit.fixed_writes (by decide)) fun first => ?_
      refine .skip (Emit.fixed_writes (by decide)) fun _ => ?_
      refine .skip (key low) fun _ => ?_
      have close : Writes base ([] ++ [first]) (do return (first, ← Emit.fixed .closeParen)) modifierRow :=
        .bind (Emit.fixed_writes (by decide)) fun last => .pure (spanRow_sublist first last)
      refine .ite (fun _ => ?_) fun _ => close
      exact .skip (Emit.fixed_writes (by decide)) fun _ => .skip (key high) fun _ => close

theorem emitModifiers_writes : ∀ kinds, Writes base [] (emitModifiers kinds) fun ms => ms.flatMap StringModifier.row
  | [] => .pure (.refl _)
  | kind :: rest =>
    .bind (emitModifierTokens_writes kind) fun _ => .bind (emitModifiers_writes rest) fun _ => .pure (by
      simp [StringModifier.row])

theorem emitContent_writes (content : ContentDraft) : Writes base [] (emitContent content) StringContent.handles := by
  cases content with
  | plain text => exact .bind (Emit.literal_writes (by decide) _ rfl) fun _ => .pure (by simp [StringContent.handles])
  | hex units => exact .bind (HexDraft.emitString_writes units) fun _ => .pure (by simp [StringContent.handles])
  | regexp text regexp =>
    exact .bind (Emit.literal_writes (by decide) _ rfl) fun _ => .pure (by simp [StringContent.handles])

private theorem emitString_writes (draft : StringDraft) : Writes base [] (emitString draft) StringDefinition.row := by
  refine .bind (Emit.literal_writes (by decide) _ rfl) fun id => ?_
  refine .bind (Emit.fixed_writes (by decide)) fun assign => ?_
  refine .bind (emitContent_writes draft.content) fun content => ?_
  exact .bind (emitModifiers_writes draft.modifiers) fun modifiers => .pure (by simp [StringDefinition.row])

private theorem emitStrings_writes : ∀ (drafts : List StringDraft) (strings : NameTrie StringDefinition),
    Writes base (stringRows strings) (emitStrings strings drafts) stringRows
  | [], _ => .pure (.refl _)
  | draft :: rest, strings => by
    refine .bind (emitString_writes draft) fun string => .skip Emit.newline_writes fun _ => ?_
    have rows : stringRows strings ++ string.row = stringRows (strings.insertAgain draft.id string) := by
      simp [stringRows, NameTrie.values_insertAgain]
    rw [rows]
    exact emitStrings_writes rest _

theorem emit_writes (draft : RuleDraft) (words : ∀ entry ∈ draft.metas, Word entry.2) (name : String) :
    Writes base [] (draft.emit name) Rule.row := by
  unfold emit
  refine .bind (emitTokens_writes (List.forall_mem_map.mpr fun kind member => ⟨?_, rfl⟩)) fun modifiers => ?_
  · rintro rfl
    cases draft.isGlobal <;> cases draft.isPrivate <;> simp at member
  refine .bind (Emit.fixed_writes (by decide)) fun keyword => ?_
  refine .bind (Emit.literal_writes (by decide) _ rfl) fun nameToken => ?_
  refine .choose Option.toList (fun _ => .pure (.refl _))
    (fun _ => .map (Emit.fixed_writes (by decide)) fun _ => .refl _) fun tagColon => ?_
  refine .bind (emitTokens_writes (List.forall_mem_map.mpr fun _ _ => ⟨nofun, rfl⟩)) fun tags => ?_
  refine .bind (Emit.fixed_writes (by decide)) fun opening => ?_
  refine .bind (emitComments_writes draft.comments) fun _ => ?_
  refine .choose headerRow (fun _ => .pure (.refl _))
    (fun _ => .map (emitSection_writes (by decide)) fun _ => .refl _) fun metaSection => ?_
  refine .bind (emitMetas_writes words) fun metas => ?_
  refine .choose headerRow (fun _ => .pure (.refl _))
    (fun _ => .map (emitSection_writes (by decide)) fun _ => .refl _) fun stringSection => ?_
  refine .bind (emitStrings_writes draft.strings {}) fun strings => ?_
  refine .bind (emitSection_writes (by decide)) fun conditionSection => ?_
  refine .bind draft.condition.emit_writes fun condition => ?_
  refine .skip Emit.newline_writes fun _ => ?_
  refine .bind (Emit.fixed_writes (by decide)) fun closing => .pure ?_
  simp [Rule.row, Rule.bodyRow, Rule.tagRow, Rule.metaRow, Rule.stringRow, Rule.conditionRow, stringRows]

private theorem emitStrings_gives : ∀ (drafts : List StringDraft) {strings : NameTrie StringDefinition}, strings.Neat →
    Gives (emitStrings strings drafts) fun t => t.Neat ∧ (drafts = [] → t = strings)
  | [], _, neat => .pure ⟨neat, fun _ => rfl⟩
  | draft :: rest, _, neat => .after fun string => .after fun _ s t s' done =>
    ⟨(emitStrings_gives rest (neat.insertAgain draft.id string) s t s' done).1, nofun⟩

private theorem emit_filed (draft : RuleDraft) (name : String) : Gives (draft.emit name) Rule.Filed := by
  unfold emit
  refine .after fun modifiers => .after fun keyword => .after fun nameToken => ?_
  refine .choose (fun _ => True) (fun _ => .any) (fun _ => .any) fun tagColon _ => ?_
  refine .after fun tags => .after fun opening => .after fun _ => ?_
  refine .choose (fun _ => True) (fun _ => .any) (fun _ => .any) fun metaSection _ => .after fun metas => ?_
  refine .choose (fun header => header = none → draft.strings = []) (fun empty => .pure fun _ =>
    List.isEmpty_iff.mp empty)
    (fun _ => .map nofun) fun stringSection missing => ?_
  refine .bind (emitStrings_gives draft.strings NameTrie.neat_empty) fun strings ⟨neat, kept⟩ => ?_
  refine .after fun conditionSection => .after fun condition => .after fun _ => .after fun closing => .pure ⟨neat, ?_⟩
  intro none
  rw [show strings = {} from kept (missing none)]
  rfl

/-! ### Drafts that are filled step by step -/

/-- Drafts that the steps of building lead to. -/
inductive Filled : RuleDraft → Prop
  | new : Filled {}
  | withName {draft : RuleDraft} (name : String) : Filled draft → Filled (draft.withName name)
  | markPrivate {draft : RuleDraft} : Filled draft → Filled draft.markPrivate
  | markGlobal {draft : RuleDraft} : Filled draft → Filled draft.markGlobal
  | withTag {draft : RuleDraft} (tag : String) : Filled draft → Filled (draft.withTag tag)
  | withComment {draft : RuleDraft} (text : String) : Filled draft → Filled (draft.withComment text)
  | withStringMeta {draft : RuleDraft} (key value : String) : Filled draft → Filled (draft.withStringMeta key value)
  | withIntMeta {draft : RuleDraft} (key : String) (value : Int64) : Filled draft → Filled (draft.withIntMeta key value)
  | withUIntMeta {draft : RuleDraft} (key : String) (value : UInt64) :
      Filled draft → Filled (draft.withUIntMeta key value)
  | withHexMeta {draft : RuleDraft} (key : String) (value : UInt64) :
      Filled draft → Filled (draft.withHexMeta key value)
  | withBoolMeta {draft : RuleDraft} (key : String) (value : Bool) :
      Filled draft → Filled (draft.withBoolMeta key value)
  | withString {draft : RuleDraft} (id : String) (content : ContentDraft) :
      Filled draft → Filled (draft.withString id content)
  | withRegexp {draft : RuleDraft} (id pattern modifiers : String) :
      Filled draft → Filled (draft.withRegexp id pattern modifiers)
  | withModifier {draft : RuleDraft} (modifier : ModifierKind) : Filled draft → Filled (draft.withModifier modifier)
  | withXorRange {draft : RuleDraft} (low high : UInt8) : Filled draft → Filled (draft.withXorRange low high)
  | withBase64 {draft : RuleDraft} (alphabet : String) : Filled draft → Filled (draft.withBase64 alphabet)
  | withBase64Wide {draft : RuleDraft} (alphabet : String) : Filled draft → Filled (draft.withBase64Wide alphabet)
  | withCondition {draft : RuleDraft} (condition : ConditionDraft) :
      Filled draft → Filled (draft.withCondition condition)

/-- A value that a step of building puts into the meta section. -/
inductive Valued : TokenKind × Literal → Prop
  | text (value : String) : Valued (.string, .ofText value)
  | int (value : Int64) : Valued (.integer, .ofInt value)
  | uint (value : UInt64) : Valued (.integer, .ofUInt value)
  | hex (value : UInt64) : Valued (.integer, (Literal.ofUInt value).withFormatted (hexadecimal value.toNat))
  | bool (value : Bool) : Valued (.boolean, .ofBool value)

theorem Valued.word {value : TokenKind × Literal} (valued : Valued value) : Word value := by
  cases valued <;> exact ⟨nofun, rfl⟩

private theorem withMeta_valued {draft : RuleDraft} {kind : TokenKind} {value : Literal}
    (metas : ∀ entry ∈ draft.metas, Valued entry.2) (key : String)
    (valued : Valued (kind, value)) : ∀ entry ∈ (draft.withMeta key kind value).metas, Valued entry.2 := by
  unfold withMeta named
  split_ifs
  · simp only [List.forall_mem_append, List.forall_mem_singleton]
    exact ⟨metas, valued⟩
  · exact metas

private theorem metas_withString (draft : RuleDraft) (id : String) (content : ContentDraft) :
    (draft.withString id content).metas = draft.metas := by
  unfold withString
  split_ifs <;> rfl

private theorem metas_withModifier (draft : RuleDraft) (modifier : ModifierKind) :
    (draft.withModifier modifier).metas = draft.metas := by
  unfold withModifier
  split
  · split_ifs <;> rfl
  · rfl

theorem Filled.valued {draft : RuleDraft} (filled : draft.Filled) : ∀ entry ∈ draft.metas, Valued entry.2 := by
  induction filled with
  | new => exact List.forall_mem_nil _
  | markPrivate _ ih | markGlobal _ ih | withComment _ _ ih | withCondition _ _ ih => exact ih
  | withName _ _ ih =>
    unfold RuleDraft.withName named
    split_ifs <;> exact ih
  | withTag _ _ ih =>
    unfold RuleDraft.withTag named
    split_ifs <;> exact ih
  | withStringMeta key value _ ih => exact withMeta_valued ih key (.text value)
  | withIntMeta key value _ ih => exact withMeta_valued ih key (.int value)
  | withUIntMeta key value _ ih => exact withMeta_valued ih key (.uint value)
  | withHexMeta key value _ ih => exact withMeta_valued ih key (.hex value)
  | withBoolMeta key value _ ih => exact withMeta_valued ih key (.bool value)
  | withString _ _ _ ih => rwa [metas_withString]
  | withRegexp _ _ _ _ ih =>
    unfold RuleDraft.withRegexp
    dsimp only
    split
    · rwa [metas_withString]
    · exact ih
  | withModifier _ _ ih => rwa [metas_withModifier]
  | withXorRange _ _ _ ih =>
    unfold RuleDraft.withXorRange
    split_ifs
    · exact ih
    · rwa [metas_withModifier]
  | withBase64 _ _ ih =>
    unfold RuleDraft.withBase64 checkAlphabet
    split_ifs
    · rwa [metas_withModifier]
    · exact ih
  | withBase64Wide _ _ ih =>
    unfold RuleDraft.withBase64Wide checkAlphabet
    split_ifs
    · rwa [metas_withModifier]
    · exact ih

theorem Filled.words {draft : RuleDraft} (filled : draft.Filled) : ∀ entry ∈ draft.metas, Word entry.2 :=
  fun entry member => (filled.valued entry member).word

end RuleDraft

/-! ### What is built -/

/-- What is written into a new stream can be put into a file. -/
theorem Writes.ready {α : Type} {step : Emit α} {row : α → List Handle} {id : ChainId}
    (writes : Writes (.empty id) [] step row) {node : α} {tokens : TokenStream}
    (done : step (.empty id) = .ok (node, tokens)) : Detached.Ready row ⟨tokens, node⟩ ∧ tokens.Drafted := by
  obtain ⟨drafted, listed, _⟩ := writes _ _ _ done [] ⟨TokenStream.drafted_empty id, List.nil_sublist _, .refl _⟩
  exact ⟨⟨drafted.toLone, listed⟩, drafted⟩

/-- A condition is built by writing its draft. -/
theorem ConditionDraft.build_done {id : ChainId} {draft : ConditionDraft} {condition : Detached Expr}
    (done : draft.build id = .ok condition) : draft.emit (.empty id) = .ok (condition.node, condition.tokens) := by
  unfold ConditionDraft.build at done
  cases found : draft.emit.run (.empty id) with
  | error e => simp [found, bind, Except.bind] at done
  | ok result =>
    obtain rfl : ⟨result.2, result.1⟩ = condition := by
      simpa [found, bind, Except.bind, pure, Except.pure] using done
    exact found

theorem ConditionDraft.build_written {id : ChainId} {draft : ConditionDraft} {condition : Detached Expr}
    (done : draft.build id = .ok condition) : condition.Ready Expr.handles ∧ condition.tokens.Drafted :=
  draft.emit_writes.ready (build_done done)

theorem ConditionDraft.build_ready {id : ChainId} {draft : ConditionDraft} {condition : Detached Expr}
    (done : draft.build id = .ok condition) : condition.Ready Expr.handles :=
  (build_written done).1

/-- A rule is built by writing its draft under the name that it was given. -/
theorem RuleDraft.build_done {id : ChainId} {draft : RuleDraft} {rule : Detached Rule}
    (done : draft.build id = .ok rule) : ∃ name, draft.emit name (.empty id) = .ok (rule.node, rule.tokens) := by
  unfold RuleDraft.build at done
  split at done
  next => cases done
  next => cases done
  next name _ _ =>
    cases found : (draft.emit name).run (.empty id) with
    | error e => simp [found, bind, Except.bind] at done
    | ok result =>
      obtain rfl : ⟨result.2, result.1⟩ = rule := by
        simpa [found, bind, Except.bind, pure, Except.pure] using done
      exact ⟨name, found⟩

theorem RuleDraft.build_written {id : ChainId} {draft : RuleDraft} (filled : draft.Filled) {rule : Detached Rule}
    (done : draft.build id = .ok rule) : rule.Ready Rule.row ∧ rule.tokens.Drafted ∧ rule.node.Filed := by
  obtain ⟨name, found⟩ := build_done done
  obtain ⟨ready, drafted⟩ := (draft.emit_writes filled.words name).ready found
  exact ⟨ready, drafted, draft.emit_filed name _ _ _ found⟩

theorem RuleDraft.build_ready {id : ChainId} {draft : RuleDraft} (filled : draft.Filled) {rule : Detached Rule}
    (done : draft.build id = .ok rule) : rule.Ready Rule.row ∧ rule.node.Filed :=
  (build_written filled done).imp_right (·.2)

end YaraRules
