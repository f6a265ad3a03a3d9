import YaraRules.Edit.Rule
import YaraRules.Proofs.CodeMoves
import YaraRules.Proofs.RuleRows

/-! What edits make of the tokens of a rule. Every edit of a rule that succeeds rewrites
its row: the tokens that the rule holds afterwards stand where those stood that it held
before, in the same order and in the same stream. -/

namespace YaraRules

open TokenStream (Tidy Rewrites)
open NameTrie (Drops)

/-! ### Changes that succeed -/

/-- A change of a state succeeds with a result and leaves a state. -/
def Succeeds {σ α : Type} (change : ExceptT EditError (StateM σ) α) (s : σ) (a : α) (s' : σ) : Prop :=
  change s = (.ok a, s')

namespace Succeeds

variable {σ α β : Type} {s s' : σ} {b : β}

theorem bind {change : ExceptT EditError (StateM σ) α} {next : α → ExceptT EditError (StateM σ) β}
    (done : Succeeds (change >>= next) s b s') :
    ∃ a middle, Succeeds change s a middle ∧ Succeeds (next a) middle b s' := by
  have run : ExceptT.bindCont next (change s).1 (change s).2 = (.ok b, s') := done
  rcases found : change s with ⟨result, middle⟩
  rw [found] at run
  cases result with
  | error e => cases run
  | ok a => exact ⟨a, middle, found, run⟩

theorem get_bind {next : σ → ExceptT EditError (StateM σ) β} (done : Succeeds (get >>= next) s b s') :
    Succeeds (next s) s b s' := done

theorem modify_bind {f : σ → σ} {next : PUnit → ExceptT EditError (StateM σ) β}
    (done : Succeeds (modify f >>= next) s b s') : Succeeds (next ⟨⟩) (f s) b s' := done

/-- What a change demands of the state holds. -/
theorem guard {c : Prop} [Decidable c] {e : EditError} {next : α → ExceptT EditError (StateM σ) β}
    {change : ExceptT EditError (StateM σ) β} (done : Succeeds (if c then throw e >>= next else change) s b s') :
    ¬ c ∧ Succeeds change s b s' := by
  split_ifs at done with failed
  · cases done
  · exact ⟨failed, done⟩

theorem for_cons {each : α → ExceptT EditError (StateM σ) PUnit} {item : α} {items : List α} {u : PUnit}
    (done : Succeeds (forIn (item :: items) PUnit.unit fun x _ =>
    do each x; pure (ForInStep.yield PUnit.unit)) s u s') :
    ∃ middle, Succeeds (each item) s ⟨⟩ middle ∧
      Succeeds (forIn items PUnit.unit fun x _ => do each x; pure (ForInStep.yield PUnit.unit)) middle u s' := by
  rw [List.forIn_cons] at done
  obtain ⟨step, middle, first, rest⟩ := done.bind
  obtain ⟨_, middle', first, yielded⟩ := first.bind
  cases yielded
  exact ⟨middle, first, rest⟩

end Succeeds

/-! ### Changes that are made -/

/-- A change of a state fails and leaves a state. -/
def Fails {σ α : Type} (change : ExceptT EditError (StateM σ) α) (s : σ) (e : EditError) (s' : σ) : Prop :=
  change s = (.error e, s')

section

variable {σ α β : Type} {change : ExceptT EditError (StateM σ) α} {next : α → ExceptT EditError (StateM σ) β}
  {s middle s' : σ} {a : α} {b : β} {e : EditError}

theorem get_run (next : σ → ExceptT EditError (StateM σ) β) (s : σ) : (get >>= next) s = next s s := rfl

theorem bind_run (change : ExceptT EditError (StateM σ) α) (next : α → ExceptT EditError (StateM σ) β) (s : σ) :
    (change >>= next) s = ExceptT.bindCont next (change s).1 (change s).2 := rfl

theorem Succeeds.seq (first : Succeeds change s a middle) (rest : Succeeds (next a) middle b s') :
    Succeeds (change >>= next) s b s' := by
  rw [Succeeds, bind_run, first]
  exact rest

/-- Nothing is done after a change that fails. -/
theorem Fails.seq (failed : Fails change s e s') : Fails (change >>= next) s e s' := by
  rw [Fails, bind_run, failed]
  rfl

end

/-! ### Detached nodes -/

namespace Detached

/-- A stream of their own holds the tokens of a node in order. -/
structure Ready {α : Type} (row : α → List Handle) (detached : Detached α) : Prop where
  lone : detached.tokens.Lone
  listed : (row detached.node).Sublist detached.tokens.code

/-- A copy is the node under the handles of the copied tokens. -/
theorem copyOf_done {α : Type} {rename : TokenStream.Renaming → α → α} {tokens : TokenStream} {id : ChainId} {node : α}
    {first last : Handle} {copy : Detached α} (done : Detached.copyOf rename tokens id node first last = .ok copy) :
    ∃ names stream, tokens.copyRange id first last = .ok (names, stream) ∧ copy = ⟨stream, rename names node⟩ := by
  unfold Detached.copyOf at done
  cases copied : tokens.copyRange id first last with
  | error e => simp [copied, bind, Except.bind] at done
  | ok result =>
    refine ⟨result.1, result.2, rfl, ?_⟩
    simpa [copied, bind, Except.bind, pure, Except.pure] using done.symm

/-- A copy is ready to be put somewhere if the copied tokens are in order. -/
theorem Ready.copyOf {α : Type} {row : α → List Handle} {rename : TokenStream.Renaming → α → α}
    (renames : ∀ names node, (row (rename names node)).Sublist ((row node).map names.apply)) {tokens : TokenStream}
    {id : ChainId} {node : α} {first last : Handle} {copy : Detached α} (tidy : tokens.Tidy)
    (begins : (row node).head? = some first) (ends : (row node).getLast? = some last)
    (chain : ∀ h ∈ row node, h.chain = first.chain) (listed : (row node).Sublist tokens.code)
    (done : Detached.copyOf rename tokens id node first last = .ok copy) : copy.Ready row := by
  obtain ⟨names, stream, copied, rfl⟩ := copyOf_done done
  obtain ⟨lone, inside⟩ := tidy.copyRange begins ends chain listed copied
  exact ⟨lone, (renames names node).trans inside⟩

end Detached

/-! ### Changes of tokens -/

namespace TokenEdit

variable {tokens tokens' : TokenStream}

theorem succeeds_apply {α : Type} {f : TokenStream → Except TokenStream.Error (α × TokenStream)} {a : α}
    (done : Succeeds (TokenEdit.apply f) tokens a tokens') : f tokens = .ok (a, tokens') := by
  have rest := Succeeds.get_bind done
  cases found : f tokens with
  | error e =>
    rw [found] at rest
    cases rest
  | ok result =>
    rw [found] at rest
    cases rest
    rfl

theorem apply_run {α : Type} (f : TokenStream → Except TokenStream.Error (α × TokenStream)) (tokens : TokenStream) :
    TokenEdit.apply f tokens = ((match f tokens with
      | .ok (result, tokens) => do
        set tokens
        return result
      | .error error => throw (.tokens error) : TokenEdit α) tokens) := rfl

theorem apply_succeeds {α : Type} {f : TokenStream → Except TokenStream.Error (α × TokenStream)} {a : α}
    (done : f tokens = .ok (a, tokens')) : Succeeds (TokenEdit.apply f) tokens a tokens' := by
  rw [Succeeds, apply_run, done]
  rfl

theorem apply_fails {α : Type} {f : TokenStream → Except TokenStream.Error (α × TokenStream)} {e : TokenStream.Error}
    (failed : f tokens = .error e) : Fails (TokenEdit.apply f) tokens (.tokens e) tokens := by
  rw [Fails, apply_run, failed]
  rfl

private theorem insertBefore_rewrites {before new : Handle} {token : Token} (tidy : tokens.Tidy)
    (done : Succeeds (insertBefore before token) tokens new tokens') (word : token.kind ≠ .newLine) :
    Rewrites tokens tokens' [before] [new, before] :=
  tidy.insertBefore word (succeeds_apply done)

theorem insertAfter_rewrites {before new : Handle} {token : Token} (tidy : tokens.Tidy)
    (done : Succeeds (insertAfter before token) tokens new tokens') (word : token.kind ≠ .newLine) :
    Rewrites tokens tokens' [before] [before, new] :=
  tidy.insertAfter word (succeeds_apply done)

theorem succeeds_erase {first last : Handle} {u : Unit} (done : Succeeds (erase first last) tokens u tokens') :
    tokens.erase first last = .ok tokens' := by
  have run := succeeds_apply done
  cases erased : tokens.erase first last with
  | error e => simp [erased, bind, Except.bind] at run
  | ok after =>
    obtain ⟨_, rfl⟩ : () = u ∧ after = tokens' := by simpa [erased, bind, Except.bind, pure, Except.pure] using run
    rfl

theorem eraseOne_rewrites {h : Handle} {u : Unit} (tidy : tokens.Tidy) (done : Succeeds (eraseOne h) tokens u tokens') :
    Rewrites tokens tokens' [h] [] :=
  tidy.erase rfl rfl (.inl rfl) (succeeds_erase done)

theorem eraseLine_rewrites {row : List Handle} {first last : Handle} {u : Unit} (tidy : tokens.Tidy)
    (begins : row.head? = some first) (ends : row.getLast? = some last)
    (done : Succeeds (eraseLine first last) tokens u tokens') : Rewrites tokens tokens' row [] :=
  tidy.erase begins ends (.inr rfl) (succeeds_erase done.get_bind)

private theorem exchange_rewrites {old row : List Handle} {first last : Handle} {source : TokenStream}
    {names : TokenStream.Renaming} (tidy : tokens.Tidy) (lone : source.Lone) (begins : old.head? = some first)
    (ends : old.getLast? = some last) (nonempty : row ≠ []) (inside : row.Sublist source.code)
    (done : Succeeds (exchange first last source) tokens names tokens') :
    Rewrites tokens tokens' old (row.map names.apply) :=
  tidy.exchange lone begins ends nonempty inside (succeeds_apply done)

end TokenEdit

namespace RuleEdit

variable {tokens : TokenStream} {rule : Rule} {id : ChainId} {scope' : RuleScope} {u : Unit}

theorem onTokens_run {α : Type} (edit : TokenEdit α) (scope : RuleScope) :
    onTokens edit scope = ((edit scope.tokens).1, { scope with tokens := (edit scope.tokens).2 }) := rfl

theorem succeeds_onTokens {α : Type} {edit : TokenEdit α} {a : α}
    (done : Succeeds (onTokens edit) ⟨tokens, rule, id⟩ a scope') :
    ∃ tokens', Succeeds edit tokens a tokens' ∧ scope' = ⟨tokens', rule, id⟩ := by
  rcases found : edit tokens with ⟨result, tokens'⟩
  have run : (result, RuleScope.mk tokens' rule id) = (Except.ok a, scope') := by
    have same := done
    unfold Succeeds onTokens ExceptT.run at same
    rw [found] at same
    exact same
  cases run
  exact ⟨tokens', found, rfl⟩

theorem onTokens_bind {α β : Type} {edit : TokenEdit α} {next : α → RuleEdit β} {b : β}
    (done : Succeeds (onTokens edit >>= next) ⟨tokens, rule, id⟩ b scope') :
    ∃ a tokens', Succeeds edit tokens a tokens' ∧ Succeeds (next a) ⟨tokens', rule, id⟩ b scope' := by
  obtain ⟨a, middle, changed, rest⟩ := done.bind
  obtain ⟨tokens', found, rfl⟩ := succeeds_onTokens changed
  exact ⟨a, tokens', found, rest⟩

theorem succeeds_modifyRule {f : Rule → Rule} (done : Succeeds (modifyRule f) ⟨tokens, rule, id⟩ u scope') :
    scope' = ⟨tokens, f rule, id⟩ := by
  cases done
  rfl

private theorem modifyRule_bind {β : Type} {f : Rule → Rule} {next : Unit → RuleEdit β} {b : β}
    (done : Succeeds (modifyRule f >>= next) ⟨tokens, rule, id⟩ b scope') :
    Succeeds (next ()) ⟨tokens, f rule, id⟩ b scope' := done

/-- The row of a rule was rewritten, and its strings are in order. -/
def Keeps (tokens : TokenStream) (rule : Rule) (scope' : RuleScope) : Prop :=
  Rewrites tokens scope'.tokens rule.row scope'.rule.row ∧ scope'.rule.Filed

/-! ### Modifiers -/

theorem addModifier_keeps {kind : TokenKind} (word : kind ≠ .newLine) (tidy : tokens.Tidy) (filed : rule.Filed)
    (done : Succeeds (addModifier kind) ⟨tokens, rule, id⟩ u scope') : Keeps tokens rule scope' := by
  obtain ⟨added, tokens₁, inserted, rest⟩ := onTokens_bind done.get_bind
  have first := TokenEdit.insertBefore_rewrites tidy inserted word
  split at rest
  next other more _ modifiers =>
    -- The word goes in front of the keyword at first, and then in front of all other words.
    obtain ⟨_, tokens₂, erased, rest⟩ := onTokens_bind rest
    obtain ⟨again, tokens₃, inserted', rest⟩ := onTokens_bind rest
    have second := TokenEdit.eraseOne_rewrites first.tidy erased
    have third := TokenEdit.insertBefore_rewrites second.tidy inserted' word
    obtain rfl := succeeds_modifyRule rest
    have back := ((first.trans (second.right [rule.keyword])).right ([rule.name] ++ (rule.tagRow ++ rule.bodyRow))).left
      rule.modifiers
    refine ⟨back.trans ?_, filed.neat, filed.header⟩
    show Rewrites tokens₂ tokens₃ (rule.modifiers ++ _) ([again] ++ rule.modifiers ++ _)
    rw [modifiers]
    exact third.right _
  next =>
    obtain rfl := succeeds_modifyRule rest
    refine ⟨?_, filed.neat, filed.header⟩
    show Rewrites tokens tokens₁ (rule.modifiers ++ _) ((rule.modifiers ++ [added]) ++ _)
    rw [List.append_assoc]
    exact (first.right _).left rule.modifiers

theorem setModifier_keeps {kind : TokenKind} {wanted : Bool} (word : kind ≠ .newLine) (tidy : tokens.Tidy)
    (filed : rule.Filed) (done : Succeeds (setModifier kind wanted) ⟨tokens, rule, id⟩ u scope') :
    Keeps tokens rule scope' := by
  have rest := done.get_bind
  dsimp only at rest
  split at rest
  next => exact addModifier_keeps word tidy filed rest
  next index found =>
    have rest := modifyRule_bind rest
    have inside : index < rule.modifiers.length := (List.findIdx?_eq_some_iff_getElem.mp found).1
    rw [List.getElem?_eq_getElem inside] at rest
    obtain ⟨_, middle, looped, ended⟩ := rest.bind
    obtain ⟨_, first, none⟩ := looped.for_cons
    obtain ⟨tokens', erased, rfl⟩ := succeeds_onTokens first
    have gone := TokenEdit.eraseOne_rewrites tidy erased
    cases none
    cases ended
    refine ⟨?_, filed.neat, filed.header⟩
    have split : rule.modifiers = rule.modifiers.take index ++
        ([rule.modifiers[index]] ++ rule.modifiers.drop (index + 1)) := by
      simp
    show Rewrites tokens tokens' (rule.modifiers ++ _) (rule.modifiers.eraseIdx index ++ _)
    rw [List.eraseIdx_eq_take_drop_succ]
    nth_rewrite 1 [split]
    exact (gone.frame _ _).right _
  next =>
    cases rest
    exact ⟨.refl tidy _, filed⟩

/-! ### Tags -/

private theorem tagAnchor_keeps {anchor : Handle} (tidy : tokens.Tidy)
    (done : Succeeds tagAnchor ⟨tokens, rule, id⟩ anchor scope') :
    ∃ tokens' colon most, scope' = ⟨tokens', { rule with tagColon := colon }, id⟩ ∧
      colon.toList ++ rule.tags = most ++ [anchor] ∧
      Rewrites tokens tokens' ([rule.name] ++ rule.tagRow) ([rule.name] ++ (most ++ [anchor])) := by
  have rest := done.get_bind
  dsimp only at rest
  split at rest
  next last found =>
    cases rest
    obtain ⟨most, tags⟩ := List.getLast?_eq_some_iff.mp found
    have row : rule.tagRow = (rule.tagColon.toList ++ most) ++ [anchor] := by simp [Rule.tagRow, tags]
    exact ⟨tokens, rule.tagColon, _, rfl, row, row ▸ .refl tidy _⟩
  next found =>
    obtain ⟨colon, tokens', inserted, rest⟩ := onTokens_bind rest
    have empty : rule.tags = [] := List.getLast?_eq_none_iff.mp found
    have added := TokenEdit.insertAfter_rewrites tidy inserted (by simp [Token.fixed])
    cases modifyRule_bind rest
    refine ⟨tokens', some anchor, [], rfl, by simp [empty], ?_⟩
    exact (added.right rule.tagRow).shrink (by simp)

theorem addTag_keeps {tag : String} (tidy : tokens.Tidy) (filed : rule.Filed)
    (done : Succeeds (addTag tag) ⟨tokens, rule, id⟩ u scope') : Keeps tokens rule scope' := by
  obtain ⟨anchor, middle, anchored, rest⟩ := (done.get_bind.guard.2.guard.2).bind
  obtain ⟨tokens₁, colon, most, rfl, row, first⟩ := tagAnchor_keeps tidy anchored
  obtain ⟨token, tokens₂, inserted, rest⟩ := onTokens_bind rest
  have second := TokenEdit.insertAfter_rewrites first.tidy inserted nofun
  obtain rfl := succeeds_modifyRule rest
  refine ⟨?_, filed.neat, filed.header⟩
  show Rewrites tokens tokens₂ _ (rule.modifiers ++
    ([rule.keyword] ++ ([rule.name] ++ (colon.toList ++ (rule.tags ++ [token]) ++ rule.bodyRow))))
  rw [← List.append_assoc colon.toList, row]
  have both := first.trans ((second.left most).left [rule.name])
  simpa [Rule.row] using ((both.right rule.bodyRow).left [rule.keyword]).left rule.modifiers

theorem removeTag_keeps {tag : String} {found : Bool} (tidy : tokens.Tidy) (filed : rule.Filed)
    (done : Succeeds (removeTag tag) ⟨tokens, rule, id⟩ found scope') : Keeps tokens rule scope' := by
  have rest := done.get_bind
  dsimp only at rest
  split at rest
  next =>
    cases rest
    exact ⟨.refl tidy _, filed⟩
  next token listed =>
    obtain ⟨ahead, behind, fresh, tags, fewer⟩ := List.exists_erase_eq (List.mem_of_find?_eq_some listed)
    obtain ⟨_, tokens₁, erased, rest⟩ := onTokens_bind (modifyRule_bind rest)
    have gone := TokenEdit.eraseOne_rewrites tidy erased
    have first : Rewrites tokens tokens₁ rule.tagRow (rule.tagColon.toList ++ rule.tags.erase token) := by
      rw [Rule.tagRow, fewer, tags]
      exact (gone.frame ahead behind).left _
    split at rest
    next colon empty there =>
      obtain ⟨_, tokens₂, erased', rest⟩ := onTokens_bind (modifyRule_bind rest)
      have second := (TokenEdit.eraseOne_rewrites first.tidy erased').right (rule.tags.erase token)
      cases rest
      rw [there] at first
      exact ⟨((first.trans second).right rule.bodyRow).left _ |>.left _, filed.neat, filed.header⟩
    next =>
      cases rest
      exact ⟨(first.right rule.bodyRow).left _ |>.left _, filed.neat, filed.header⟩

/-! ### Lines -/

private theorem eraseLines_rewrites {β : Type} (row : β → List Handle) {first last : β → Handle}
    (begins : ∀ item, (row item).head? = some (first item)) (ends : ∀ item, (row item).getLast? = some (last item))
    {items removed kept : List β} (drops : Drops items removed kept) (tidy : tokens.Tidy) {v : PUnit}
    (done : Succeeds (forIn removed PUnit.unit fun item _ => do
      onTokens (.eraseLine (first item) (last item))
      pure (ForInStep.yield PUnit.unit)) ⟨tokens, rule, id⟩ v scope') :
    ∃ tokens', scope' = ⟨tokens', rule, id⟩ ∧ Rewrites tokens tokens' (items.flatMap row) (kept.flatMap row) := by
  induction drops generalizing tokens with
  | done =>
    cases done
    exact ⟨tokens, rfl, .refl tidy _⟩
  | @step front back removed kept item later ih =>
    obtain ⟨_, first, rest⟩ := done.for_cons
    obtain ⟨tokens₁, erased, rfl⟩ := succeeds_onTokens first
    have gone := TokenEdit.eraseLine_rewrites tidy (begins item) (ends item) erased
    obtain ⟨tokens', rfl, others⟩ := ih gone.tidy rest
    refine ⟨tokens', rfl, ?_⟩
    have one := gone.frame (front.flatMap row) (back.flatMap row)
    exact Rewrites.trans (by simpa using one) others

private theorem eraseHeader_rewrites {header : Option Section} (tidy : tokens.Tidy)
    (done : Succeeds (eraseHeader header) ⟨tokens, rule, id⟩ u scope') :
    ∃ tokens', scope' = ⟨tokens', rule, id⟩ ∧ Rewrites tokens tokens' (headerRow header) [] := by
  cases header with
  | none =>
    cases done
    exact ⟨tokens, rfl, .refl tidy _⟩
  | some header =>
    obtain ⟨tokens', erased, rfl⟩ := succeeds_onTokens done
    exact ⟨tokens', rfl, TokenEdit.eraseLine_rewrites tidy rfl rfl erased⟩

/-! ### Entries of the meta section -/

theorem metaAnchor_keeps {anchor : Handle} (tidy : tokens.Tidy) (filed : rule.Filed)
    (done : Succeeds metaAnchor ⟨tokens, rule, id⟩ anchor scope') :
    ∃ tokens' header most, scope' = ⟨tokens', { rule with metaSection := header }, id⟩ ∧
      headerRow header ++ rule.metas.flatMap MetaEntry.handles = most ++ [anchor] ∧
      Rewrites tokens tokens' (rule.metaRow ++ (rule.stringRow ++ rule.conditionRow))
        ((most ++ [anchor]) ++ (rule.stringRow ++ rule.conditionRow)) := by
  have rest := done.get_bind
  dsimp only at rest
  split at rest
  next _ _ entry found =>
    cases rest
    obtain ⟨most, metas⟩ := List.getLast?_eq_some_iff.mp found
    have row : rule.metaRow =
        (headerRow rule.metaSection ++ (most.flatMap MetaEntry.handles ++ [entry.key, entry.assign])) ++
          [entry.value] := by
      simp [Rule.metaRow, metas, MetaEntry.handles]
    exact ⟨tokens, rule.metaSection, _, rfl, row, row ▸ .refl tidy _⟩
  next header found there =>
    cases rest
    have empty : rule.metas = [] := List.getLast?_eq_none_iff.mp found
    have row : rule.metaRow = [header.keyword] ++ [header.colon] := by
      simp [Rule.metaRow, empty, there, headerRow, Section.handles]
    exact ⟨tokens, rule.metaSection, _, rfl, row, row ▸ .refl tidy _⟩
  next found missing =>
    obtain ⟨keyword, tokens₁, inserted, rest⟩ := onTokens_bind rest
    obtain ⟨colon, tokens₂, inserted', rest⟩ := onTokens_bind rest
    have first := TokenEdit.insertBefore_rewrites tidy inserted (by simp [Token.fixed])
    have second := TokenEdit.insertAfter_rewrites first.tidy inserted' (by simp [Token.fixed])
    cases modifyRule_bind rest
    have empty : rule.metas = [] := List.getLast?_eq_none_iff.mp found
    have nothing : rule.metaRow = [] := by simp [Rule.metaRow, empty, missing, headerRow]
    -- The new section goes before the keyword of the one that comes next.
    obtain ⟨behind, next⟩ : ∃ behind, rule.stringRow ++ rule.conditionRow =
        [(rule.stringSection.getD rule.conditionSection).keyword] ++ behind := by
      cases there : rule.stringSection with
      | none => exact ⟨_, by simp [Rule.stringRow, there, headerRow, filed.header there]; rfl⟩
      | some header => exact ⟨_, by simp [Rule.stringRow, there, headerRow]; rfl⟩
    refine ⟨tokens₂, some ⟨keyword, anchor⟩, [keyword], rfl, by simp [empty, headerRow, Section.handles], ?_⟩
    rw [nothing, next]
    exact (first.right behind).trans (second.right _)

theorem metaValueKind_word (value : Literal) : metaValueKind value ≠ .newLine := by
  unfold metaValueKind
  split <;> nofun

theorem addMeta_keeps {key : String} {value : Literal} (tidy : tokens.Tidy) (filed : rule.Filed)
    (done : Succeeds (addMeta key value) ⟨tokens, rule, id⟩ u scope') : Keeps tokens rule scope' := by
  obtain ⟨anchor, middle, anchored, rest⟩ := done.guard.2.bind
  obtain ⟨tokens₁, header, most, rfl, row, first⟩ := metaAnchor_keeps tidy filed anchored
  obtain ⟨keyToken, tokens₂, inserted₂, rest⟩ := onTokens_bind rest
  obtain ⟨assign, tokens₃, inserted₃, rest⟩ := onTokens_bind rest
  obtain ⟨valueToken, tokens₄, inserted₄, rest⟩ := onTokens_bind rest
  have second := TokenEdit.insertAfter_rewrites first.tidy inserted₂ nofun
  have third := TokenEdit.insertAfter_rewrites second.tidy inserted₃ nofun
  have fourth := TokenEdit.insertAfter_rewrites third.tidy inserted₄ (metaValueKind_word value)
  obtain rfl := succeeds_modifyRule rest
  refine ⟨?_, filed.neat, filed.header⟩
  have entry := second.trans ((third.trans (fourth.left [keyToken])).left [anchor])
  have row' : headerRow header ++ (rule.metas ++ [MetaEntry.mk keyToken assign valueToken]).flatMap MetaEntry.handles =
      most ++ ([anchor] ++ ([keyToken] ++ [assign, valueToken])) := by
    rw [List.flatMap_append, ← List.append_assoc, row]
    simp [MetaEntry.handles]
  have part := entry.left most
  rw [← row'] at part
  exact (first.trans (part.right _)).left _ |>.left _ |>.left _ |>.left _

/-- A token of a value takes another kind and another literal. -/
theorem setMetaValue_keeps {key : String} {value : Literal} (tidy : tokens.Tidy) (filed : rule.Filed)
    (done : Succeeds (setMetaValue key value) ⟨tokens, rule, id⟩ u scope') : Keeps tokens rule scope' := by
  have rest := done.get_bind
  dsimp only at rest
  split at rest
  next => cases rest
  next entry _ =>
    cases rest.guard.2
    have first := tidy.setKind entry.value (metaValueKind_word value) rule.row
    exact ⟨first.trans (first.tidy.setLiteral entry.value value rule.row), filed⟩

theorem drops_filter {α : Type} (p : α → Bool) (front items : List α) :
    Drops (front ++ items) (items.filter p) (front ++ items.filter (!p ·)) := by
  induction items generalizing front with
  | nil => exact .done _
  | cons item rest ih =>
    cases chosen : p item with
    | true => simpa [chosen] using Drops.step (ih front)
    | false => simpa [chosen] using ih (front ++ [item])

theorem removeMeta_keeps {key : String} {count : Nat} (tidy : tokens.Tidy) (filed : rule.Filed)
    (done : Succeeds (removeMeta key) ⟨tokens, rule, id⟩ count scope') : Keeps tokens rule scope' := by
  have rest := done.get_bind
  dsimp only at rest
  rw [List.partition_eq_filter_filter] at rest
  obtain ⟨_, middle, looped, rest⟩ := (modifyRule_bind rest).bind
  have drops := drops_filter (fun entry : MetaEntry => entry.keyText tokens == key) [] rule.metas
  obtain ⟨tokens₁, rfl, lines⟩ := eraseLines_rewrites MetaEntry.handles (fun _ => rfl) (fun _ => rfl) drops tidy looped
  have first := lines.left (headerRow rule.metaSection)
  split at rest
  next empty =>
    obtain ⟨_, _, erased, rest⟩ := (modifyRule_bind rest).bind
    obtain ⟨tokens₂, rfl, gone⟩ := eraseHeader_rewrites first.tidy erased
    cases rest
    have second := gone.right (List.flatMap MetaEntry.handles (rule.metas.filter fun entry =>
      !(entry.keyText tokens == key)))
    exact ⟨((first.trans second).right _).left _ |>.left _ |>.left _ |>.left _, filed.neat, filed.header⟩
  next =>
    cases rest
    exact ⟨(first.right _).left _ |>.left _ |>.left _ |>.left _, filed.neat, filed.header⟩

/-! ### Strings -/

theorem renameString_keeps {old new : String} (tidy : tokens.Tidy) (filed : rule.Filed)
    (done : Succeeds (renameString old new) ⟨tokens, rule, id⟩ u scope') : Keeps tokens rule scope' := by
  have rest := done.get_bind.guard.2.guard.2
  dsimp only at rest
  split at rest
  next => cases rest
  next string _ =>
    obtain rfl := succeeds_modifyRule rest.modify_bind
    have renamed := tidy.setLiteral string.id (.ofWritten new) rule.row
    cases found : rule.strings.rename? old new with
    | none => exact ⟨renamed, filed⟩
    | some strings =>
      obtain ⟨values, neat⟩ := filed.neat.rename? found
      have row : Rule.row { rule with strings } = rule.row := by
        simp only [Rule.row, Rule.bodyRow, Rule.stringRow, values]
        rfl
      exact ⟨row ▸ renamed, neat, fun none => values.trans (filed.header none)⟩

theorem removeString_keeps {name : String} (tidy : tokens.Tidy) (filed : rule.Filed)
    (done : Succeeds (removeString name) ⟨tokens, rule, id⟩ u scope') : Keeps tokens rule scope' := by
  have rest := done.get_bind.guard.2.guard.2
  dsimp only at rest
  obtain ⟨drops, neat⟩ := filed.neat.remove name
  obtain ⟨_, middle, looped, rest⟩ := (modifyRule_bind rest).bind
  obtain ⟨tokens₁, rfl, lines⟩ := eraseLines_rewrites StringDefinition.row StringDefinition.head?_row
    StringDefinition.getLast?_row drops tidy looped
  have first := lines.left (headerRow rule.stringSection)
  split at rest
  next empty =>
    obtain ⟨tokens₂, rfl, gone⟩ := eraseHeader_rewrites first.tidy (modifyRule_bind rest)
    have second := gone.right ((rule.strings.remove name).2.values.flatMap StringDefinition.row)
    exact ⟨((first.trans second).right _).left _ |>.left _ |>.left _ |>.left _ |>.left _, neat,
      fun _ => neat.values_of_isEmpty empty⟩
  next kept =>
    cases rest
    refine ⟨(first.right _).left _ |>.left _ |>.left _ |>.left _ |>.left _, neat, fun none => ?_⟩
    have total := drops.length
    rw [filed.header none, List.length_nil] at total
    have nothing : (rule.strings.remove name).2.values.length = 0 := by omega
    exact List.eq_nil_of_length_eq_zero nothing

/-! ### The condition -/

theorem setCondition_succeeds {after : TokenStream} {condition : Detached Expr}
    {names : TokenStream.Renaming}
    (done : (tokens.exchange rule.condition.first rule.condition.last condition.tokens).1 = .ok (names, after)) :
    Succeeds (setCondition condition) ⟨tokens, rule, id⟩ ()
      ⟨after, { rule with condition := condition.node.rename names }, max id (condition.tokens.id + 1)⟩ := by
  have exchanged : Succeeds
      (TokenEdit.exchange rule.condition.first rule.condition.last condition.tokens) tokens names after :=
    TokenEdit.apply_succeeds done
  have changed : Succeeds (onTokens (.exchange rule.condition.first rule.condition.last condition.tokens))
      ⟨tokens, rule, max id (condition.tokens.id + 1)⟩ names ⟨after, rule, max id (condition.tokens.id + 1)⟩ := by
    rw [Succeeds, onTokens_run, exchanged]
  exact changed.seq rfl

theorem setCondition_fails {condition : Detached Expr} {e : TokenStream.Error}
    (failed : (tokens.exchange rule.condition.first rule.condition.last condition.tokens).1 = .error e) :
    Fails (setCondition condition) ⟨tokens, rule, id⟩ (.tokens e) ⟨tokens, rule, max id (condition.tokens.id + 1)⟩ := by
  have exchanged : Fails (TokenEdit.exchange rule.condition.first rule.condition.last condition.tokens) tokens
      (.tokens e) tokens :=
    TokenEdit.apply_fails failed
  have stopped : Fails (onTokens (.exchange rule.condition.first rule.condition.last condition.tokens))
      ⟨tokens, rule, max id (condition.tokens.id + 1)⟩ (.tokens e)
        ⟨tokens, rule, max id (condition.tokens.id + 1)⟩ := by
    rw [Fails, onTokens_run, exchanged]
  exact stopped.seq

theorem setCondition_keeps {condition : Detached Expr} (ready : condition.Ready Expr.handles) (tidy : tokens.Tidy)
    (filed : rule.Filed) (done : Succeeds (setCondition condition)
    ⟨tokens, rule, id⟩ u scope') : Keeps tokens rule scope' := by
  obtain ⟨names, tokens', exchanged, rest⟩ := onTokens_bind done.modify_bind.get_bind
  have replaced := TokenEdit.exchange_rewrites tidy ready.lone rule.condition.head?_handles
    rule.condition.getLast?_handles condition.node.handles_ne_nil ready.listed exchanged
  obtain rfl := succeeds_modifyRule rest
  rw [← Expr.handles_mapHandles] at replaced
  refine ⟨?_, filed.neat, filed.header⟩
  exact (replaced.right _).left _ |>.left _ |>.left _ |>.left _ |>.left _ |>.left _ |>.left _

end RuleEdit

end YaraRules
